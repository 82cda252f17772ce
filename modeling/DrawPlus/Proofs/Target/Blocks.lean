import Mathlib
import DrawPlus.Proofs.Target.Syntax

/-!
# Names and blocks of the generated language

The text of a program is looked at as a list of marks in the order of the text: where a block opens
or closes, and where a name is declared or used. A `for` statement is a block around its header and
its body. A name is known from its declarator on, so also in its own initial value.

A use is in scope when the name is declared before it and the block of the declaration has not been
closed in between. The definition speaks of positions in the text. `frames` computes the names in
scope, block by block from the innermost, and `inScope_iff` says that it computes that.
-/

namespace DrawPlus.Target

variable {ms : List Mark} {w : String}

/-! ## Marks -/

/-- What a place in the text of a program does with names and blocks. -/
inductive Mark where
  | opens
  | closes
  | declares (name : String)
  | uses (name : String)
deriving DecidableEq

/-- Which words of the text are looked at: those that can be names of a program, or all of them. -/
inductive View where
  | names
  | all

/-- What is seen of the word of a function or a type. -/
def View.own : View → String → List String
  | .names, _ => []
  | .all, w => [w]

@[simp] theorem View.own_names (w : String) : View.names.own w = [] := rfl

@[simp] theorem View.own_all (w : String) : View.all.own w = [w] := rfl

namespace Expr

mutual

def words (v : View) : Expr → List String
  | .word w => [w]
  | .constant _ => []
  | .binary l _ r => l.words v ++ r.words v
  | .cast type e => v.own type ++ e.words v
  | .call f es => v.own f ++ wordsAll v es

def wordsAll (v : View) : List Expr → List String
  | [] => []
  | e :: es => e.words v ++ wordsAll v es

end

end Expr

/-- The marks of a simple statement. The member of a structure is no word of its own. -/
def Simple.marks (v : View) : Simple → List Mark
  | .declare type _ w e => (v.own type).map .uses ++ .declares w :: (e.words v).map .uses
  | .assign w e => .uses w :: (e.words v).map .uses
  | .assignMember w _ e => .uses w :: (e.words v).map .uses
  | .call f es => (v.own f).map .uses ++ (Expr.wordsAll v es).map .uses

theorem Simple.marks_declare_names (type : String) (isPointer : Bool) (w : String) (e : Expr) :
    (Simple.declare type isPointer w e).marks .names =
      .declares w :: (e.words .names).map .uses := rfl

namespace Stmt

mutual

def marks (v : View) : Stmt → List Mark
  | .simple s => s.marks v
  | .branch test body arms otherwise =>
    (test.words v).map .uses ++ .opens :: (marksAll v body ++ .closes ::
      (armMarks v arms ++ otherwiseMarks v otherwise))
  | .whileLoop test body => (test.words v).map .uses ++ .opens :: (marksAll v body ++ [.closes])
  | .forLoop init test update body =>
    .opens :: (init.marks v ++ ((test.words v).map .uses ++ (update.marks v ++
      .opens :: (marksAll v body ++ [.closes, .closes]))))

def marksAll (v : View) : List Stmt → List Mark
  | [] => []
  | s :: rest => s.marks v ++ marksAll v rest

/-- The marks of the further conditions of a branch with their blocks. -/
def armMarks (v : View) : List (Expr × List Stmt) → List Mark
  | [] => []
  | (test, body) :: rest =>
    (test.words v).map .uses ++ .opens :: (marksAll v body ++ .closes :: armMarks v rest)

def otherwiseMarks (v : View) : Option (List Stmt) → List Mark
  | none => []
  | some block => .opens :: (marksAll v block ++ [.closes])

end

end Stmt

/-- The marks of the main function with the given statements: after them, the window dimensions are
used. -/
def programMarks (statements : List Stmt) : List Mark :=
  Stmt.marksAll .names statements ++ [.uses "windowWidth", .uses "windowHeight"]

/-- The names that are declared somewhere. -/
def declared (marks : List Mark) : List String :=
  marks.filterMap fun
    | .declares w => some w
    | _ => none

@[simp] theorem declared_nil : declared [] = [] := rfl

@[simp] theorem declared_append (ms ms' : List Mark) :
    declared (ms ++ ms') = declared ms ++ declared ms' := List.filterMap_append

@[simp] theorem declared_declares (w : String) (ms : List Mark) :
    declared (.declares w :: ms) = w :: declared ms := rfl

@[simp] theorem declared_uses (w : String) (ms : List Mark) :
    declared (.uses w :: ms) = declared ms := rfl

@[simp] theorem declared_opens (ms : List Mark) : declared (.opens :: ms) = declared ms := rfl

@[simp] theorem declared_closes (ms : List Mark) : declared (.closes :: ms) = declared ms := rfl

@[simp] theorem declared_map_uses (ws : List String) : declared (ws.map .uses) = [] := by
  induction ws with
  | nil => rfl
  | cons w ws ih => simpa using ih

theorem mem_declared : w ∈ declared ms ↔ .declares w ∈ ms := by
  induction ms with
  | nil => simp
  | cons m ms ih => cases m <;> simp [ih]

/-! ## Scope -/

/-- No block that was open before is closed. -/
def Unclosed (ms : List Mark) : Prop := ∀ p, p <+: ms → p.count .closes ≤ p.count .opens

/-- After the marks `before`, the name is in scope: it has been declared, and the block of the
declaration has not been closed since. -/
def InScope (before : List Mark) (w : String) : Prop :=
  ∃ a b, before = a ++ .declares w :: b ∧ Unclosed b

/-- Every use of one of the names is in scope. -/
def Scoped (names : List String) (ms : List Mark) : Prop :=
  ∀ before w after, ms = before ++ .uses w :: after → w ∈ names → InScope before w

theorem unclosed_concat {m : Mark} : Unclosed (ms ++ [m]) ↔
    Unclosed ms ∧ (ms ++ [m]).count .closes ≤ (ms ++ [m]).count .opens := by
  constructor
  · intro h
    exact ⟨fun p hp => h p (hp.trans (List.prefix_append _ _)), h _ (List.prefix_refl _)⟩
  · rintro ⟨h, hm⟩ p hp
    rcases List.prefix_concat_iff.mp hp with rfl | hp
    · exact hm
    · exact h p hp

/-- The names in scope, block by block from the innermost. -/
abbrev Frames := ℕ → List String

namespace Frames

def empty : Frames := fun _ => []

/-- The frames after a mark. -/
def pass (F : Frames) : Mark → Frames
  | .opens => fun
    | 0 => []
    | d + 1 => F d
  | .closes => fun d => F (d + 1)
  | .declares w => fun
    | 0 => w :: F 0
    | d + 1 => F (d + 1)
  | .uses _ => F

def passAll (F : Frames) (ms : List Mark) : Frames := ms.foldl pass F

@[simp] theorem passAll_nil (F : Frames) : F.passAll [] = F := rfl

@[simp] theorem passAll_cons (F : Frames) (m : Mark) (ms : List Mark) :
    F.passAll (m :: ms) = (F.pass m).passAll ms := rfl

@[simp] theorem passAll_append (F : Frames) (ms ms' : List Mark) :
    F.passAll (ms ++ ms') = (F.passAll ms).passAll ms' := List.foldl_append

@[simp] theorem passAll_map_uses (F : Frames) (ws : List String) :
    F.passAll (ws.map .uses) = F := by
  induction ws with
  | nil => rfl
  | cons w ws ih => exact ih

end Frames

/-- A declaration in a list with one more mark is that mark or stood in the list before. -/
theorem concat_eq_declares {a b : List Mark} {m : Mark} (h : ms ++ [m] = a ++ .declares w :: b) :
    (b = [] ∧ m = .declares w) ∨ ∃ c, b = c ++ [m] ∧ ms = a ++ .declares w :: c := by
  rcases List.eq_nil_or_concat b with rfl | ⟨c, z, rfl⟩
  · obtain ⟨-, hm⟩ := List.append_inj' h rfl
    exact .inl ⟨rfl, by simpa using hm⟩
  · rw [List.concat_eq_append, ← List.cons_append, ← List.append_assoc] at h
    obtain ⟨hms, hm⟩ := List.append_inj' h rfl
    rw [List.concat_eq_append]
    obtain rfl : m = z := by simpa using hm
    exact .inr ⟨c, rfl, hms⟩

/-- The name was declared in a block that is still open, and `d` blocks have been opened and not
closed since. -/
def DeclaredAt (ms : List Mark) (w : String) (d : ℕ) : Prop :=
  ∃ a b, ms = a ++ .declares w :: b ∧ Unclosed b ∧ b.count .opens = b.count .closes + d

theorem inScope_iff_declaredAt : InScope ms w ↔ ∃ d, DeclaredAt ms w d := by
  constructor
  · rintro ⟨a, b, hms, hb⟩
    have hle := hb b (List.prefix_refl b)
    exact ⟨b.count .opens - b.count .closes, a, b, hms, hb, by omega⟩
  · rintro ⟨d, a, b, hms, hb, -⟩
    exact ⟨a, b, hms, hb⟩

theorem declaredAt_concat {m : Mark} {d : ℕ} :
    DeclaredAt (ms ++ [m]) w d ↔ (m = .declares w ∧ d = 0) ∨
      ∃ e, DeclaredAt ms w e ∧ d + [m].count .closes = e + [m].count .opens := by
  constructor
  · rintro ⟨a, b, hms, hb, hd⟩
    rcases concat_eq_declares hms with ⟨rfl, rfl⟩ | ⟨c, rfl, rfl⟩
    · exact .inl ⟨rfl, by simpa using hd.symm⟩
    · obtain ⟨hc, -⟩ := unclosed_concat.mp hb
      have hle := hc c (List.prefix_refl c)
      rw [List.count_append, List.count_append] at hd
      exact .inr ⟨c.count .opens - c.count .closes, ⟨a, c, rfl, hc, by omega⟩, by omega⟩
  · rintro (⟨rfl, rfl⟩ | ⟨e, ⟨a, b, rfl, hb, he⟩, hd⟩)
    · exact ⟨ms, [], rfl, by simp [Unclosed], rfl⟩
    · refine ⟨a, b ++ [m], by simp, unclosed_concat.mpr ⟨hb, ?_⟩, ?_⟩ <;>
        rw [List.count_append, List.count_append] <;> omega

/-- The frames hold the names by the number of blocks between their declaration and here. -/
theorem mem_passAll_empty {d : ℕ} : w ∈ Frames.empty.passAll ms d ↔ DeclaredAt ms w d := by
  induction ms using List.reverseRecOn generalizing d with
  | nil => simp [Frames.empty, DeclaredAt]
  | append_singleton ms m ih =>
    rw [Frames.passAll_append, Frames.passAll_cons, Frames.passAll_nil, declaredAt_concat]
    cases m with
    | opens => cases d <;> simp [Frames.pass, ih]
    | closes => simp [Frames.pass, ih]
    | declares v => cases d <;> simp [Frames.pass, ih, eq_comm]
    | uses v => simp [Frames.pass, ih]

theorem inScope_iff : InScope ms w ↔ ∃ d, w ∈ Frames.empty.passAll ms d := by
  simp only [inScope_iff_declaredAt, mem_passAll_empty]

/-- Every use of one of the names finds it in one of the frames. -/
def ScopedFrom (names : List String) : Frames → List Mark → Prop
  | _, [] => True
  | F, m :: ms => (∀ w ∈ names, m = .uses w → ∃ d, w ∈ F d) ∧ ScopedFrom names (F.pass m) ms

section

variable {names : List String} {F : Frames}

@[simp] theorem scopedFrom_nil : ScopedFrom names F [] ↔ True := Iff.rfl

@[simp] theorem scopedFrom_opens :
    ScopedFrom names F (.opens :: ms) ↔ ScopedFrom names (F.pass .opens) ms := by
  simp [ScopedFrom]

@[simp] theorem scopedFrom_closes :
    ScopedFrom names F (.closes :: ms) ↔ ScopedFrom names (F.pass .closes) ms := by
  simp [ScopedFrom]

@[simp] theorem scopedFrom_declares :
    ScopedFrom names F (.declares w :: ms) ↔ ScopedFrom names (F.pass (.declares w)) ms := by
  simp [ScopedFrom]

@[simp] theorem scopedFrom_uses :
    ScopedFrom names F (.uses w :: ms) ↔ (w ∈ names → ∃ d, w ∈ F d) ∧ ScopedFrom names F ms := by
  refine and_congr ⟨fun h hw => h w hw rfl, ?_⟩ Iff.rfl
  rintro h v hv ⟨⟩
  exact h hv

@[simp] theorem scopedFrom_append {ms' : List Mark} : ScopedFrom names F (ms ++ ms') ↔
      ScopedFrom names F ms ∧ ScopedFrom names (F.passAll ms) ms' := by
  induction ms generalizing F with
  | nil => simp
  | cons m ms ih => simp [ScopedFrom, ih, and_assoc]

theorem scopedFrom_map_uses {ws : List String} :
    ScopedFrom names F (ws.map .uses) ↔ ∀ w ∈ ws, w ∈ names → ∃ d, w ∈ F d := by
  induction ws with
  | nil => simp
  | cons w ws ih => simp [ih]

theorem scopedFrom_iff : ScopedFrom names F ms ↔
    ∀ before w after, ms = before ++ .uses w :: after → w ∈ names →
      ∃ d, w ∈ F.passAll before d := by
  induction ms generalizing F with
  | nil => simp
  | cons m ms ih =>
    rw [ScopedFrom, ih]
    constructor
    · rintro ⟨hm, hms⟩ before w after h hw
      cases before with
      | nil =>
        rw [List.nil_append, List.cons.injEq] at h
        exact hm w hw h.1
      | cons b before =>
        rw [List.cons_append, List.cons.injEq] at h
        obtain ⟨rfl, h⟩ := h
        exact hms before w after h hw
    · intro h
      refine ⟨?_, ?_⟩
      · rintro w hw rfl
        exact h [] w ms rfl hw
      · rintro before w after rfl hw
        exact h (m :: before) w after rfl hw

theorem scoped_iff : Scoped names ms ↔ ScopedFrom names .empty ms := by
  simp only [Scoped, scopedFrom_iff, inScope_iff]

end

/-! ## Order -/

/-- Every use of a name comes after a declaration of it, unless the name is one of `known` or of
`library`, and every declaration declares a new name. -/
def Ordered (library : List String) : List String → List Mark → Prop
  | _, [] => True
  | known, .declares w :: ms => w ∉ known ∧ Ordered library (known ++ [w]) ms
  | known, .uses w :: ms => (w ∈ library ∨ w ∈ known) ∧ Ordered library known ms
  | known, .opens :: ms => Ordered library known ms
  | known, .closes :: ms => Ordered library known ms

section

variable {library known : List String}

@[simp] theorem ordered_append {ms' : List Mark} : Ordered library known (ms ++ ms') ↔
    Ordered library known ms ∧ Ordered library (known ++ declared ms) ms' := by
  induction ms generalizing known with
  | nil => simp [Ordered]
  | cons m ms ih => cases m <;> simp [Ordered, ih, and_assoc]

@[simp] theorem ordered_map_uses {ws : List String} :
    Ordered library known (ws.map .uses) ↔ ∀ w ∈ ws, w ∈ library ∨ w ∈ known := by
  induction ws with
  | nil => simp [Ordered]
  | cons w ws ih => simp [Ordered, ih]

theorem Ordered.declares_mem {before after : List Mark}
    (h : Ordered library [] (before ++ .uses w :: after)) (hw : w ∉ library) :
    .declares w ∈ before := by
  rw [ordered_append, List.nil_append] at h
  obtain ⟨-, hu | hu, -⟩ := h
  · exact absurd hu hw
  · exact mem_declared.mp hu

theorem Ordered.mem_of_uses (h : Ordered library known ms) (hw : .uses w ∈ ms) :
    w ∈ library ∨ w ∈ known ++ declared ms := by
  obtain ⟨before, after, rfl⟩ := List.append_of_mem hw
  obtain ⟨-, hu, -⟩ := ordered_append.mp h
  refine hu.imp_right fun hu => ?_
  rw [declared_append, ← List.append_assoc]
  exact List.mem_append_left _ hu

theorem Ordered.nodup (h : Ordered library known ms) (hk : known.Nodup) :
    (known ++ declared ms).Nodup := by
  induction ms generalizing known with
  | nil => simpa using hk
  | cons m ms ih =>
    cases m with
    | opens | closes => exact ih h hk
    | uses w => exact ih h.2 hk
    | declares w =>
      have hn : (known ++ [w]).Nodup := by
        rw [List.nodup_append']
        simpa [hk] using h.1
      simpa using ih h.2 hn

end

end DrawPlus.Target
