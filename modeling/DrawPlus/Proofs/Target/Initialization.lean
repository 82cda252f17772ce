import DrawPlus.Proofs.Parsing.ReadBack
import DrawPlus.Proofs.Scope.Decision
import DrawPlus.Proofs.Scope.Growth
import DrawPlus.Proofs.Scope.Operands
import DrawPlus.Proofs.Target.BlockScope

/-!
# Variables that are read in their own declarations

A variable is in scope in its own initial value, for the check as well as in the generated language.
So a program can be accepted although it reads a variable before it has a value. That cannot happen
in any other way: every variable that is read is one whose declaration has begun, and the
declaration is complete unless the read stands inside of it. This is shown for the accesses of a
tree and for those of the code.

In the code there is one more way for a declaration to read its own name: colours and a number that
is too large are written as words, and a variable may have the name of such a word.
-/

namespace DrawPlus

/-! ## Accesses in order -/

namespace Access

variable {ι τ : Type}

/-- The variable whose declaration is complete. -/
def completed? : Access ι τ → Option ι
  | .completes name => some name
  | _ => none

/-- The declaration of every variable has begun when the variable is read, apart from those of the
library. -/
def Begun (library : List ι) (as : List (Access ι τ)) : Prop :=
  ∀ before x after, as = before ++ .reads x :: after →
    x ∈ library ∨ ∃ type, .begins x type ∈ before

/-- The declaration of every variable is complete when the variable is read, unless it is one of the
library and no declaration has taken its place. -/
def Initialized (library : List ι) (as : List (Access ι τ)) : Prop :=
  ∀ before x after, as = before ++ .reads x :: after →
    .completes x ∈ before ∨ x ∈ library ∧ ∀ type, .begins x type ∉ before

/-- The declarations among the accesses, each with what is done inside of it. -/
structure Brackets (as : List (Access ι τ)) (D : ι → List (Access ι τ) → Prop) : Prop where
  closed : ∀ {before x type after}, as = before ++ .begins x type :: after →
    ∃ inner rest, after = inner ++ .completes x :: rest ∧ D x inner
  occurs : ∀ {x inner}, D x inner →
    ∃ before type rest, as = before ++ .begins x type :: (inner ++ .completes x :: rest)
  once : (as.filterMap completed?).Nodup

section

variable {library : List ι} {as : List (Access ι τ)} {D : ι → List (Access ι τ) → Prop}

theorem mem_completed {x : ι} : x ∈ as.filterMap completed? ↔ .completes x ∈ as := by
  rw [List.mem_filterMap]
  constructor
  · rintro ⟨a, ha, hx⟩
    cases a <;> cases hx
    exact ha
  · intro h
    exact ⟨_, h, rfl⟩

/-- What stands before the end of a declaration is not a declaration of the same name. -/
theorem completes_notMem {x : ι} {before after : List (Access ι τ)}
    (h : ((before ++ .completes x :: after).filterMap completed?).Nodup) :
    .completes x ∉ before := by
  rw [List.filterMap_append, List.nodup_append'] at h
  intro hmem
  exact h.2.2 (mem_completed.mpr hmem) (mem_completed.mpr (List.mem_cons_self ..))

/-- A declaration that has begun and is not complete is the one that is being made. -/
theorem Brackets.reads_mem {x : ι} {type : τ} {before between after : List (Access ι τ)}
    (h : Brackets as D) (has : as = before ++ .begins x type :: (between ++ .reads x :: after))
    (hx : .completes x ∉ between) : ∃ inner, D x inner ∧ .reads x ∈ inner := by
  obtain ⟨inner, rest, heq, hD⟩ := h.closed has
  refine ⟨inner, hD, ?_⟩
  rcases List.append_eq_append_iff.mp heq with ⟨c, rfl, hc⟩ | ⟨c, rfl, hc⟩
  · cases c with
    | nil => cases hc
    | cons a c =>
      cases hc
      exact List.mem_append_right _ (.head _)
  · cases c with
    | nil => cases hc
    | cons a c =>
      cases hc
      exact absurd (List.mem_append_right _ (.head _)) hx

/-- The declarations are complete at every read exactly when none of them reads its own name. -/
theorem Brackets.initialized_iff (h : Brackets as D) (hbegun : Begun library as) :
    Initialized library as ↔ ∀ x inner, D x inner → .reads x ∉ inner := by
  constructor
  · intro hinit x inner hD hreads
    obtain ⟨before, type, rest, has⟩ := h.occurs hD
    obtain ⟨i, j, rfl⟩ := List.append_of_mem hreads
    have hbefore :
        as = (before ++ .begins x type :: i) ++ .reads x :: (j ++ .completes x :: rest) := by
      simp [has]
    have honce := h.once
    rw [show as = (before ++ .begins x type :: (i ++ .reads x :: j)) ++ .completes x :: rest by
      simp [has]] at honce
    rcases hinit _ x _ hbefore with hcompletes | ⟨-, hnone⟩
    · refine completes_notMem honce ?_
      simp only [List.mem_append, List.mem_cons] at hcompletes ⊢
      tauto
    · exact hnone type (List.mem_append_right _ (.head _))
  · intro hD before x after has
    by_cases hcompletes : .completes x ∈ before
    · exact .inl hcompletes
    have hnone (type : τ) : .begins x type ∉ before := by
      intro hbegins
      obtain ⟨first, between, rfl⟩ := List.append_of_mem hbegins
      have hbetween : .completes x ∉ between := fun hx =>
        hcompletes (List.mem_append_right _ (.tail _ hx))
      rw [List.append_assoc] at has
      obtain ⟨inner, hinner, hreads⟩ := h.reads_mem has hbetween
      exact hD x inner hinner hreads
    rcases hbegun before x after has with hx | ⟨type, hbegins⟩
    · exact .inr ⟨hx, hnone⟩
    · exact absurd hbegins (hnone type)

end

end Access

/-! ## Accesses of trees -/

/-- Where the end of a list begins with a certain element, in two lists one after the other. -/
theorem cons_suffix_append {α : Type} {y : α} {r a b : List α} (h : y :: r <:+ a ++ b) :
    (∃ r', y :: r' <:+ a ∧ r = r' ++ b) ∨ y :: r <:+ b := by
  induction a with
  | nil => exact .inr h
  | cons c a ih =>
    rw [List.cons_append, List.suffix_cons_iff] at h
    rcases h with heq | h
    · cases heq
      exact .inl ⟨a, List.suffix_rfl, rfl⟩
    · rcases ih h with ⟨r', hr', rfl⟩ | hb
      · exact .inl ⟨r', List.suffix_cons_iff.mpr (.inr hr'), rfl⟩
      · exact .inr hb

theorem cons_suffix_flatMap {α β : Type} {y : β} {r : List β} {l : List α} {f : α → List β}
    (h : y :: r <:+ l.flatMap f) : ∃ m ∈ l, ∃ r' c, y :: r' <:+ f m ∧ r = r' ++ c := by
  induction l with
  | nil => simp at h
  | cons m l ih =>
    rw [List.flatMap_cons] at h
    rcases cons_suffix_append h with ⟨r', hr', rfl⟩ | h
    · exact ⟨m, .head _, r', _, hr', rfl⟩
    · obtain ⟨m', hm', hr'⟩ := ih h
      exact ⟨m', .tail _ hm', hr'⟩

namespace Node

theorem Meets.trans {tree n m : Node} (h : tree.Meets n) (h' : n.Meets m) : tree.Meets m := by
  induction h' with
  | self => exact h
  | inside _ hm ih => exact ih.inside hm

theorem Meets.of_checked {n m k : Node} (hm : m ∈ n.checked) (h : m.Meets k) : n.Meets k :=
  (Meets.self.inside hm).trans h

theorem infix_accesses {tree n : Node} (h : tree.Meets n) : n.accesses <:+: tree.accesses := by
  induction h with
  | self => exact List.infix_rfl
  | @inside n m _ hm ih =>
    refine List.IsInfix.trans ?_ ih
    have hmem : m.accesses <:+: n.checked.flatMap accesses :=
      List.infix_of_mem_flatten (List.mem_map_of_mem hm)
    rw [accesses_eq n]
    exact hmem.trans ((List.prefix_append _ _).isInfix.trans (List.suffix_append _ _).isInfix)

theorem accesses_varDecl (type : Option Kind) (x : Value) (e : Node) :
    (Node.varDecl type x e).accesses = .begins x type :: (e.accesses ++ [.completes x]) := by
  have hchecked : (Node.varDecl type x e).checked.flatMap accesses = e.accesses := by
    cases e with
    | absent =>
      rw [accesses_eq .absent]
      rfl
    | _ => exact List.flatMap_singleton ..
  rw [accesses_eq, hchecked]
  rfl

/-- A tree reads the variables in it. -/
theorem reads_mem_accesses {n : Node} {x : Value} :
    .reads x ∈ n.accesses ↔ n.Meets (.variable x) := by
  constructor
  · intro h
    induction n using induction_children with
    | h n ih =>
      rw [accesses_eq, List.mem_append, List.mem_append, List.mem_flatMap] at h
      rcases h with h | ⟨m, hm, h⟩ | h
      · cases n <;> simp [opening] at h
        subst h
        exact .self
      · obtain ⟨p, hp⟩ := exists_child_of_mem_checked hm
        exact .of_checked hm (ih p m hp h)
      · cases n <;> simp [closing] at h
  · intro h
    refine (infix_accesses h).subset ?_
    rw [accesses_eq]
    exact .head _

/-- After a declaration has begun comes its initial value, and then it is complete. -/
theorem exists_of_begins_suffix {n : Node} {x : Value} {type : Option Kind}
    {after : List ScopeAccess} (h : .begins x type :: after <:+ n.accesses) :
    ∃ e rest, n.Meets (.varDecl type x e) ∧ after = e.accesses ++ .completes x :: rest := by
  induction n using induction_children generalizing after with
  | h n ih =>
    rw [accesses_eq] at h
    rcases cons_suffix_append h with ⟨r, hr, rfl⟩ | h
    · have hmem := hr.subset (.head _)
      cases n with
      | varDecl type' y e =>
        obtain ⟨heq, rfl⟩ : Access.begins x type = .begins y type' ∧ r = [] := by
          simpa [opening, List.suffix_cons_iff] using hr
        cases heq
        refine ⟨e, [], .self, ?_⟩
        have haccesses := accesses_varDecl type x e
        rw [accesses_eq] at haccesses
        exact (List.cons.inj haccesses).2
      | cursorCreation | «variable» => cases List.mem_singleton.mp hmem
      | _ => cases hmem
    · rcases cons_suffix_append h with ⟨r, hr, rfl⟩ | h
      · obtain ⟨m, hm, r', c, hr', rfl⟩ := cons_suffix_flatMap hr
        obtain ⟨p, hp⟩ := exists_child_of_mem_checked hm
        obtain ⟨e, rest, hmeets, rfl⟩ := ih p m hp hr'
        exact ⟨e, rest ++ (c ++ n.closing), .of_checked hm hmeets, by simp⟩
      · have hmem := h.subset (.head _)
        cases n with
        | varDecl => cases List.mem_singleton.mp hmem
        | _ => cases hmem

/-- As many declarations are complete in the end as have begun. -/
theorem completed_perm (n : Node) : (n.accesses.filterMap Access.completed?).Perm
    ((n.accesses.filterMap Access.entry?).map Prod.fst) := by
  induction n using induction_children with
  | h n ih =>
    have hchecked : ((n.checked.flatMap accesses).filterMap Access.completed?).Perm
        (((n.checked.flatMap accesses).filterMap Access.entry?).map Prod.fst) := by
      rw [List.filterMap_flatMap, List.filterMap_flatMap, List.map_flatMap]
      apply List.Perm.flatMap_left
      intro m hm
      obtain ⟨p, hp⟩ := exists_child_of_mem_checked hm
      exact ih p m hp
    rw [accesses_eq]
    simp only [List.filterMap_append, List.map_append]
    cases n with
    | varDecl type x e =>
      have hlast := (hchecked.append_right [x]).trans (List.perm_append_singleton x _)
      simpa [opening, closing, List.filterMap_cons, Access.completed?, Access.entry?] using hlast
    | _ => exact hchecked.append_right []

/-- The declarations of an accepted tree. -/
theorem brackets_accesses {n : Node} (h : Scope.empty.Passes n.accesses) :
    Access.Brackets n.accesses fun x inner =>
      ∃ type e, n.Meets (.varDecl type x e) ∧ inner = e.accesses where
  closed := by
    intro before x type after has
    obtain ⟨e, rest, hmeets, heq⟩ := exists_of_begins_suffix ⟨before, has.symm⟩
    exact ⟨e.accesses, rest, heq, type, e, hmeets, rfl⟩
  occurs := by
    rintro x inner ⟨type, e, hmeets, rfl⟩
    obtain ⟨before, rest, has⟩ := infix_accesses hmeets
    refine ⟨before, type, rest, ?_⟩
    rw [← has, accesses_varDecl]
    simp
  once := by
    have hdistinct := Scope.distinct_empty.addAll h
    rw [Scope.Distinct, Scope.declared_addAll] at hdistinct
    exact n.completed_perm.nodup_iff.mpr hdistinct.of_append_left

theorem begun_of_passes {as : List ScopeAccess} (h : Scope.empty.Passes as) :
    Access.Begun [] as := by
  intro before x after has
  rw [has, Scope.passes_append] at h
  obtain ⟨k, hk⟩ := h.2.1
  have hdeclared := Check.hasVariable_of_readable? hk
  simp only [Scope.hasVariable, Scope.declared_addAll, List.any_eq_true, beq_iff_eq] at hdeclared
  obtain ⟨⟨y, type⟩, hmem, rfl⟩ := hdeclared
  obtain ⟨a, ha, hentry⟩ := List.mem_filterMap.mp hmem
  cases a <;> cases hentry
  exact .inr ⟨type, ha⟩

end Node

/-! ## Accesses of code -/

/-- A declaration uses its own name. In code, colours are names as well. -/
def Step.readsItself : Step → Bool
  | .declares _ (.text w) init => init.words.contains w
  | .creates (.text w) x y => (Node.wordsAll [x, y]).contains w
  | _ => false

namespace Target

open Node

/-- A part of the code that is computed in one go. -/
inductive Phrase where
  | simple (s : Simple)
  | tests (e : Expr)

namespace Stmt

mutual

/-- What is computed in a statement, in the order of the text. -/
def phrases : Stmt → List Phrase
  | .simple s => [.simple s]
  | .branch test body arms otherwise =>
    .tests test :: (phrasesAll body ++ (phrasesArms arms ++ phrasesOtherwise otherwise))
  | .whileLoop test body => .tests test :: phrasesAll body
  | .forLoop init test update body =>
    .simple init :: .tests test :: .simple update :: phrasesAll body

/-- What is computed in statements one after the other. -/
def phrasesAll : List Stmt → List Phrase
  | [] => []
  | s :: rest => s.phrases ++ phrasesAll rest

/-- What is computed in the further conditions and blocks of a branch. -/
def phrasesArms : List (Expr × List Stmt) → List Phrase
  | [] => []
  | (test, body) :: rest => .tests test :: (phrasesAll body ++ phrasesArms rest)

def phrasesOtherwise : Option (List Stmt) → List Phrase
  | none => []
  | some block => phrasesAll block

end

end Stmt

/-- What a simple statement does with names. To assign to a variable is not to read it. -/
def Simple.accesses : Simple → List (Access String String)
  | .declare type _ w e => .begins w type :: ((e.words .names).map .reads ++ [.completes w])
  | .assign _ e => (e.words .names).map .reads
  | .assignMember w _ e => .reads w :: (e.words .names).map .reads
  | .call _ es => (Expr.wordsAll .names es).map .reads

namespace Phrase

/-- What a part of the code does with names. -/
def accesses : Phrase → List (Access String String)
  | .simple s => s.accesses
  | .tests e => (e.words .names).map .reads

def marks : Phrase → List Mark
  | .simple s => s.marks .names
  | .tests e => (e.words .names).map .uses

/-- A declaration uses its own name. -/
def readsItself : Phrase → Bool
  | .simple (.declare _ _ w e) => (e.words .names).contains w
  | _ => false

end Phrase

/-- What is computed in the main function with the given statements: after them, an image of the
size of the window is made. -/
def programPhrases (statements : List Stmt) : List Phrase :=
  Stmt.phrasesAll statements ++ [.simple (.call "SDL_CreateRGBSurfaceWithFormat"
    [.word "windowWidth", .word "windowHeight"])]

/-- What the main function with the given statements does with names, in the order of the text. -/
def programAccesses (statements : List Stmt) : List (Access String String) :=
  (programPhrases statements).flatMap Phrase.accesses

theorem begins_notMem_map_reads {ws : List String} {w type : String} :
    (.begins w type : Access String String) ∉ ws.map .reads := by
  simp

/-- Only declarations begin a declaration. -/
theorem exists_of_begins_suffix_phrase {p : Phrase} {w type : String}
    {after : List (Access String String)} (h : .begins w type :: after <:+ p.accesses) :
    ∃ isPointer e, p = .simple (.declare type isPointer w e) ∧
      after = (e.words .names).map .reads ++ [.completes w] := by
  have hmem : .begins w type ∈ p.accesses := h.subset (.head _)
  cases p with
  | tests e => exact absurd hmem begins_notMem_map_reads
  | simple s =>
    cases s with
    | declare type' isPointer w' e =>
      rw [Phrase.accesses, Simple.accesses, List.suffix_cons_iff] at h
      rcases h with heq | h
      · cases heq
        exact ⟨isPointer, e, rfl, rfl⟩
      · have hinside := h.subset (.head _)
        simp at hinside
    | assign target e => exact absurd hmem begins_notMem_map_reads
    | assignMember target member e =>
      simp [Phrase.accesses, Simple.accesses] at hmem
    | call f es => exact absurd hmem begins_notMem_map_reads

/-- The declarations of code, when no name is declared twice. -/
theorem brackets_phrases {ps : List Phrase}
    (honce : ((ps.flatMap Phrase.accesses).filterMap Access.completed?).Nodup) :
    Access.Brackets (ps.flatMap Phrase.accesses) fun w inner =>
      ∃ type isPointer e, .simple (.declare type isPointer w e) ∈ ps ∧
        inner = (e.words .names).map .reads where
  closed := by
    intro before w type after has
    obtain ⟨p, hp, r, c, hr, rfl⟩ := cons_suffix_flatMap ⟨before, has.symm⟩
    obtain ⟨isPointer, e, rfl, rfl⟩ := exists_of_begins_suffix_phrase hr
    exact ⟨_, c, by simp, type, isPointer, e, hp, rfl⟩
  occurs := by
    rintro w inner ⟨type, isPointer, e, hp, rfl⟩
    obtain ⟨first, last, rfl⟩ := List.append_of_mem hp
    refine ⟨first.flatMap Phrase.accesses, type, last.flatMap Phrase.accesses, ?_⟩
    simp [Phrase.accesses, Simple.accesses]
  once := honce

/-! ## The order of accesses -/

/-- What is seen of an access when declarations have no end. -/
def mark? : Access String String → Option Mark
  | .begins w _ => some (.declares w)
  | .reads w => some (.uses w)
  | _ => none

/-- The marks of names, without those of blocks. -/
def nameMarks (ms : List Mark) : List Mark := ms.filter fun m => m ≠ .opens ∧ m ≠ .closes

@[simp] theorem nameMarks_nil : nameMarks [] = [] := rfl

@[simp] theorem nameMarks_append (ms ms' : List Mark) :
    nameMarks (ms ++ ms') = nameMarks ms ++ nameMarks ms' := List.filter_append ..

@[simp] theorem nameMarks_opens (ms : List Mark) : nameMarks (.opens :: ms) = nameMarks ms := rfl

@[simp] theorem nameMarks_closes (ms : List Mark) : nameMarks (.closes :: ms) = nameMarks ms := rfl

@[simp] theorem nameMarks_map_uses (ws : List String) :
    nameMarks (ws.map .uses) = ws.map .uses := by
  simp [nameMarks]

@[simp] theorem nameMarks_simple (s : Simple) : nameMarks (s.marks .names) = s.marks .names := by
  cases s <;> simp [nameMarks, Simple.marks]

theorem ordered_nameMarks {library known : List String} {ms : List Mark} :
    Ordered library known (nameMarks ms) ↔ Ordered library known ms := by
  induction ms generalizing known with
  | nil => rfl
  | cons m ms ih =>
    cases m with
    | opens | closes => exact ih
    | declares w | uses w => exact and_congr_right fun _ => ih

mutual

theorem nameMarks_marks (s : Stmt) :
    nameMarks (s.marks .names) = s.phrases.flatMap Phrase.marks := by
  match s with
  | .simple s => simp [Stmt.marks, Stmt.phrases, Phrase.marks]
  | .branch test body arms otherwise =>
    simp [Stmt.marks, Stmt.phrases, Phrase.marks, nameMarks_marksAll body, nameMarks_armMarks arms,
      nameMarks_otherwiseMarks otherwise]
  | .whileLoop test body =>
    simp [Stmt.marks, Stmt.phrases, Phrase.marks, nameMarks_marksAll body]
  | .forLoop init test update body =>
    simp [Stmt.marks, Stmt.phrases, Phrase.marks, nameMarks_marksAll body]

theorem nameMarks_marksAll (ss : List Stmt) :
    nameMarks (Stmt.marksAll .names ss) = (Stmt.phrasesAll ss).flatMap Phrase.marks := by
  match ss with
  | [] => rfl
  | s :: ss => simp [Stmt.marksAll, Stmt.phrasesAll, nameMarks_marks s, nameMarks_marksAll ss]

theorem nameMarks_armMarks (arms : List (Expr × List Stmt)) :
    nameMarks (Stmt.armMarks .names arms) = (Stmt.phrasesArms arms).flatMap Phrase.marks := by
  match arms with
  | [] => rfl
  | (test, body) :: arms =>
    simp [Stmt.armMarks, Stmt.phrasesArms, Phrase.marks, nameMarks_marksAll body,
      nameMarks_armMarks arms]

theorem nameMarks_otherwiseMarks (otherwise : Option (List Stmt)) :
    nameMarks (Stmt.otherwiseMarks .names otherwise) =
      (Stmt.phrasesOtherwise otherwise).flatMap Phrase.marks := by
  match otherwise with
  | none => rfl
  | some block =>
    simp [Stmt.otherwiseMarks, Stmt.phrasesOtherwise, nameMarks_marksAll block]

end

section

variable {library known : List String}

theorem filterMap_mark?_reads (ws : List String) :
    (ws.map Access.reads).filterMap mark? = ws.map .uses := by
  rw [List.filterMap_map, ← List.filterMap_eq_map]
  rfl

/-- The marks of a part of the code are those of its accesses, apart from the variable that is
assigned to. -/
theorem exists_marks_eq (p : Phrase) :
    ∃ ws : List String, p.marks = ws.map .uses ++ p.accesses.filterMap mark? := by
  cases p with
  | tests e => exact ⟨[], (filterMap_mark?_reads (e.words .names)).symm⟩
  | simple s =>
    cases s with
    | declare type isPointer w e =>
      refine ⟨[], ?_⟩
      rw [Phrase.accesses, Simple.accesses, ← List.cons_append, List.filterMap_append,
        List.filterMap_cons, filterMap_mark?_reads]
      exact (List.append_nil _).symm
    | assign target e =>
      refine ⟨[target], ?_⟩
      rw [Phrase.accesses, Simple.accesses, filterMap_mark?_reads]
      rfl
    | assignMember target member e =>
      refine ⟨[], ?_⟩
      rw [Phrase.accesses, Simple.accesses, List.filterMap_cons, filterMap_mark?_reads]
      rfl
    | call f es => exact ⟨[], (filterMap_mark?_reads (Expr.wordsAll .names es)).symm⟩

theorem ordered_phrases {ps : List Phrase} (h : Ordered library known (ps.flatMap Phrase.marks)) :
    Ordered library known ((ps.flatMap Phrase.accesses).filterMap mark?) := by
  induction ps generalizing known with
  | nil => exact h
  | cons p ps ih =>
    obtain ⟨ws, hp⟩ := exists_marks_eq p
    rw [List.flatMap_cons, hp, ordered_append, ordered_append, declared_append,
      declared_map_uses, List.nil_append, List.append_nil] at h
    rw [List.flatMap_cons, List.filterMap_append, ordered_append]
    exact ⟨h.1.2, ih h.2⟩

theorem completed_phrase (p : Phrase) :
    p.accesses.filterMap Access.completed? = declared p.marks := by
  have hreads (ws : List String) :
      (ws.map (Access.reads (τ := String))).filterMap Access.completed? = [] := by
    simp [Access.completed?]
  cases p with
  | tests e => exact (hreads (e.words .names)).trans (declared_map_uses (e.words .names)).symm
  | simple s =>
    cases s <;>
      simp [Phrase.accesses, Phrase.marks, Simple.accesses, Simple.marks, List.filterMap_cons,
        Access.completed?]

theorem begun_phrases {ps : List Phrase} (h : Ordered library [] (ps.flatMap Phrase.marks)) :
    Access.Begun library (ps.flatMap Phrase.accesses) := by
  intro before w after has
  have hordered := ordered_phrases h
  rw [has, List.filterMap_append, List.filterMap_cons] at hordered
  by_cases hw : w ∈ library
  · exact .inl hw
  obtain ⟨a, ha, hmark⟩ := List.mem_filterMap.mp (hordered.declares_mem hw)
  cases a <;> cases hmark
  exact .inr ⟨_, ha⟩

/-- The declarations of code are complete at every read exactly when none of them uses its own
name. -/
theorem initialized_phrases_iff {ps : List Phrase}
    (h : Ordered library [] (ps.flatMap Phrase.marks)) :
    Access.Initialized library (ps.flatMap Phrase.accesses) ↔ ∀ p ∈ ps, p.readsItself = false := by
  have honce : ((ps.flatMap Phrase.accesses).filterMap Access.completed?).Nodup := by
    have hnodup := h.nodup List.nodup_nil
    have hdeclared : declared (ps.flatMap Phrase.marks) = ps.flatMap fun p => declared p.marks :=
      List.filterMap_flatMap
    rw [List.nil_append, hdeclared] at hnodup
    simpa only [List.filterMap_flatMap, completed_phrase] using hnodup
  rw [(brackets_phrases honce).initialized_iff (begun_phrases h)]
  constructor
  · intro hreads p hp
    unfold Phrase.readsItself
    split
    case h_1 type isPointer w e =>
      have hw := hreads w _ ⟨type, isPointer, e, hp, rfl⟩
      simpa using hw
    case h_2 => rfl
  · rintro hreads w _ ⟨type, isPointer, e, hp, rfl⟩
    have hw := hreads _ hp
    simpa [Phrase.readsItself] using hw

end

/-! ## Code and program -/

/-- The part of the code stands for the step. -/
inductive StandsFor : Step → Phrase → Prop
  | simple {n : Node} {s : Simple} {step : Step} : Translates n (.simple s) → n.steps = [step] →
      StandsFor step (.simple s)
  | tests {test : Node} {e : Expr} : TranslatesExpr test e → StandsFor (.tests test) (.tests e)

theorem standsFor_of_translates_simple {n : Node} {s : Simple} (h : Translates n (.simple s)) :
    List.Forall₂ StandsFor n.steps [.simple s] := by
  obtain ⟨step, hstep⟩ : ∃ step, n.steps = [step] := by
    cases h with
    | start h => cases h <;> exact ⟨_, rfl⟩
    | _ => exact ⟨_, rfl⟩
  rw [hstep]
  exact .cons (.simple h hstep) .nil

mutual

theorem standsFor_of_translates {n : Node} {s : Stmt} (h : Translates n s) :
    List.Forall₂ StandsFor n.steps s.phrases := by
  match s, h with
  | .simple _, h => exact standsFor_of_translates_simple h
  | .branch .., .branch ht hb ha ho =>
    rw [Check.steps_branch]
    exact .cons (.tests ht) (List.rel_append (standsFor_of_translatesAll hb)
      (List.rel_append (standsFor_of_translatesArms ha) (standsFor_of_translatesOtherwise ho)))
  | .whileLoop .., .whileLoop ht hb => exact .cons (.tests ht) (standsFor_of_translatesAll hb)
  | .forLoop .., .forLoop hi ht hu hb =>
    have hinit := standsFor_of_translates_simple (.start hi)
    have hupdate := standsFor_of_translates_simple (.start hu)
    exact List.rel_append hinit (.cons (.tests ht)
      (List.rel_append hupdate (standsFor_of_translatesAll hb)))

theorem standsFor_of_translatesAll {ns : List Node} {ss : List Stmt} (h : TranslatesAll ns ss) :
    List.Forall₂ StandsFor (stepsAll ns) (Stmt.phrasesAll ss) := by
  match h with
  | .nil => exact .nil
  | .cons hn hns =>
    exact List.rel_append (standsFor_of_translates hn) (standsFor_of_translatesAll hns)

theorem standsFor_of_translatesArms {arms : List (Node × List Node)}
    {arms' : List (Expr × List Stmt)} (h : TranslatesArms arms arms') :
    List.Forall₂ StandsFor (stepsArms arms) (Stmt.phrasesArms arms') := by
  match h with
  | .nil => exact .nil
  | .cons ht hb ha =>
    exact .cons (.tests ht)
      (List.rel_append (standsFor_of_translatesAll hb) (standsFor_of_translatesArms ha))

theorem standsFor_of_translatesOtherwise {otherwise : Option (List Node)}
    {otherwise' : Option (List Stmt)} (h : TranslatesOtherwise otherwise otherwise') :
    List.Forall₂ StandsFor (stepsAll (otherwise.getD [])) (Stmt.phrasesOtherwise otherwise') := by
  match h with
  | .none => exact .nil
  | .empty => exact .nil
  | .some hn => exact standsFor_of_translatesAll hn

end

theorem readsItself_of_standsFor {step : Step} {p : Phrase} (h : StandsFor step p) :
    step.readsItself = p.readsItself := by
  cases h with
  | tests => rfl
  | simple h hstep =>
    cases h with
    | start h =>
      cases h with
      | declaration _ hw he =>
        cases hstep
        rw [Step.readsItself, Phrase.readsItself, Bool.eq_iff_iff, List.contains_iff_mem,
          List.contains_iff_mem]
        exact (sameNames_words he _ hw).symm
      | assignment => cases hstep; rfl
    | creation hw hx hy =>
      cases hstep
      rw [Step.readsItself, Phrase.readsItself, Bool.eq_iff_iff, List.contains_iff_mem,
        List.contains_iff_mem]
      exact (sameNames_wordsAll (.cons hx (.cons hy .nil)) _ hw).symm
    | _ => cases hstep; rfl

theorem readsItself_showings (cursors : List String) :
    ∀ p ∈ Stmt.phrasesAll (showings cursors), p.readsItself = false := by
  induction cursors with
  | nil => simp [showings, Stmt.phrasesAll]
  | cons w cursors ih => exact List.forall_mem_cons.mpr ⟨rfl, ih⟩

theorem phrasesAll_append (ss ss' : List Stmt) :
    Stmt.phrasesAll (ss ++ ss') = Stmt.phrasesAll ss ++ Stmt.phrasesAll ss' := by
  induction ss with
  | nil => rfl
  | cons s ss ih => simp [Stmt.phrasesAll, ih]

theorem map_readsItself {steps : List Step} {ps : List Phrase}
    (h : List.Forall₂ StandsFor steps ps) :
    steps.map Step.readsItself = ps.map Phrase.readsItself := by
  induction h with
  | nil => rfl
  | cons hp _ ih => rw [List.map_cons, List.map_cons, readsItself_of_standsFor hp, ih]

/-- In the code of an accepted program all is complete when it is read, unless a declaration of the
program uses its own name. -/
theorem initialized_programAccesses_iff {ns : List Node} {body : List Stmt}
    (h : TranslatesAll ns body) (hc : (Node.program ns).check = .ok ()) :
    let statements := body ++ showings (Stmt.shownAll body)
    Access.Begun Check.libraryWords (programAccesses statements) ∧
      (Access.Initialized Check.libraryWords (programAccesses statements) ↔
        ∀ step ∈ stepsAll ns, step.readsItself = false) := by
  intro statements
  have hordered : Ordered Check.libraryWords []
      ((programPhrases statements).flatMap Phrase.marks) := by
    have hmarks := ordered_nameMarks.mpr (ordered_programMarks h hc)
    rw [programMarks, nameMarks_append, nameMarks_marksAll] at hmarks
    rw [programPhrases, List.flatMap_append]
    exact hmarks
  have hbody : (∀ p ∈ Stmt.phrasesAll body, p.readsItself = false) ↔
      ∀ step ∈ stepsAll ns, step.readsItself = false := by
    have hmap := map_readsItself (standsFor_of_translatesAll h)
    rw [← @List.forall_mem_map _ _ Phrase.readsItself _ (· = false), ← hmap, List.forall_mem_map]
  refine ⟨begun_phrases hordered, ?_⟩
  rw [programAccesses, initialized_phrases_iff hordered, ← hbody, programPhrases, phrasesAll_append,
    List.forall_mem_append, List.forall_mem_append]
  constructor
  · intro hall
    exact hall.1.1
  · intro hall
    exact ⟨⟨hall, readsItself_showings _⟩, List.forall_mem_singleton.mpr rfl⟩

end Target

/-! ## Accepted programs -/

open Node Target

theorem initialized_accesses_iff {tree : Node} (hc : tree.check = .ok ()) :
    Access.Begun [] tree.accesses ∧ (Access.Initialized [] tree.accesses ↔
      ∀ type x e, tree.Meets (.varDecl type x e) → ¬e.Meets (.variable x)) := by
  obtain ⟨_, hrun⟩ := check_eq_ok.mp hc
  obtain ⟨a, t, hnode, -⟩ := bind_eq_ok.mp hrun
  have hpasses := ((Check.makes_node tree).ok hnode).1
  have hbegun := begun_of_passes hpasses
  refine ⟨hbegun, ?_⟩
  rw [(brackets_accesses hpasses).initialized_iff hbegun]
  constructor
  · intro h type x e hmeets hx
    exact h x e.accesses ⟨type, e, hmeets, rfl⟩ (reads_mem_accesses.mpr hx)
  · rintro h x _ ⟨type, e, hmeets, rfl⟩ hx
    exact h type x e hmeets (reads_mem_accesses.mp hx)

theorem exists_code_initialized_iff {source : String} {tree : Node}
    (h : Node.ofText source = .ok tree) (hc : tree.check = .ok ()) :
    ∃ text statements, tree.code .standard = .ok text ∧ readProgram text = some statements ∧
      Access.Begun Check.libraryWords (programAccesses statements) ∧
      (Access.Initialized Check.libraryWords (programAccesses statements) ↔
        ∀ step ∈ tree.steps, step.readsItself = false) := by
  obtain ⟨ns, rfl, hns⟩ := isStatement_of_ofText h
  obtain ⟨body, hbody⟩ := exists_translatesAll_of_check hns hc
  have hinitialized := initialized_programAccesses_iff hbody hc
  exact ⟨_, _, code_of_translates hbody, readProgram_of_translates hbody, hinitialized⟩

/-- In an accepted tree every variable that is read has been declared, but its declaration may not
be complete. It is complete at every read exactly when no declaration reads its own variable. The
code of an accepted program has the same order, and there the declarations are complete exactly when
none of the program uses its own name. -/
theorem accepted_initialized_iff {tree : Node} (hc : tree.check = .ok ()) :
    Access.Begun [] tree.accesses ∧
    (Access.Initialized [] tree.accesses ↔
      ∀ type x e, tree.Meets (.varDecl type x e) → ¬e.Meets (.variable x)) ∧
    ∀ source, Node.ofText source = .ok tree →
      ∃ text statements, tree.code .standard = .ok text ∧ readProgram text = some statements ∧
        Access.Begun Check.libraryWords (programAccesses statements) ∧
        (Access.Initialized Check.libraryWords (programAccesses statements) ↔
          ∀ step ∈ tree.steps, step.readsItself = false) := by
  have htree := initialized_accesses_iff hc
  exact ⟨htree.1, htree.2, fun source h => exists_code_initialized_iff h hc⟩

/-- A loop with a declaration in its header and one in its body. -/
def counting : List Node :=
  drawing [.forLoop (.varDecl (some .int) "i" (.number (.int 1)))
    (.binary (.variable "i") .less (.number (.int 2)))
    (.assign "i" (.binary (.variable "i") .plus (.number (.int 1))))
    [.varDecl (some .int) "x" (.variable "i")]]

theorem ofText_counting :
    Node.ofText (Node.source (.program counting)) = .ok (.program counting) := by
  have hi : IsName "i" := isName_of_isAsciiWord (by decide) (by decide)
  have hx : IsName "x" := isName_of_isAsciiWord (by decide) (by decide)
  have hfirst : IsDeclaration .printable (.varDecl (some .int) "i" (.number (.int 1))) :=
    .intro (by decide) ⟨"i", rfl, hi⟩ (by simp [NameRule.window, NameRule.IsWindow])
      (isExpr_figure (by decide))
  have hinner : IsDeclaration .printable (.varDecl (some .int) "x" (.variable "i")) :=
    .intro (by decide) ⟨"x", rfl, hx⟩ (by simp [NameRule.window, NameRule.IsWindow])
      (isExpr_name hi)
  apply ofText_drawing
  · rw [List.forall_mem_singleton]
    exact .forLoop (.declaration hfirst)
      (.comparison (isExpr_name hi) rfl (isExpr_figure (by decide)))
      (.intro ⟨"i", rfl, hi⟩ (.binary (isExpr_name hi) rfl (isExpr_figure (by decide))))
      (List.forall_mem_singleton.mpr (.declaration hinner))
  · simp [lexemes, lexemesAll]

theorem accepted_initialized_iff_loop : ∃ text statements,
    Node.ofText (Node.source (.program counting)) = .ok (.program counting) ∧
      (Node.program counting).check = .ok () ∧
      Access.Begun [] (Node.program counting).accesses ∧
      (Node.program counting).code .standard = .ok text ∧ readProgram text = some statements ∧
      Access.Initialized Check.libraryWords (programAccesses statements) := by
  have hc : (Node.program counting).check = .ok () := rfl
  obtain ⟨hbegun, -, hcode⟩ := accepted_initialized_iff hc
  obtain ⟨text, statements, htext, hread, -, hiff⟩ := hcode _ ofText_counting
  refine ⟨text, statements, ofText_counting, hc, hbegun, htext, hread, hiff.mpr ?_⟩
  decide

def declarationOf (type : Kind) (x : String) (e : Node) : List Node :=
  drawing [.varDecl (some type) x e]

theorem ofText_declarationOf {type : Kind} {x : String} {e : Node}
    (h : IsDeclaration .printable (.varDecl (some type) x e))
    (hm : .sign .modulo ∉ (Node.varDecl (some type) x e).lexemes) :
    Node.ofText (Node.source (.program (declarationOf type x e))) =
      .ok (.program (declarationOf type x e)) :=
  ofText_drawing (List.forall_mem_singleton.mpr (.declaration h)) (List.forall_mem_singleton.mpr hm)

/-- The value of the variable is read before there is one. -/
def selfReading : List Node := declarationOf .int "x" (.variable "x")

/-- The code of the colour is the name of the variable. -/
def selfNaming : List Node := declarationOf .color "red" (.color Hue.red.name none)

/-- A program can be accepted although its code reads a variable that has no value yet. In the first
one the program reads it as well. -/
theorem accepted_not_initialized :
    (∃ text statements,
      Node.ofText (Node.source (.program selfReading)) = .ok (.program selfReading) ∧
      (Node.program selfReading).check = .ok () ∧
      (Node.program selfReading).Meets (.varDecl (some .int) "x" (.variable "x")) ∧
      ¬Access.Initialized [] (Node.program selfReading).accesses ∧
      (Node.program selfReading).code .standard = .ok text ∧ readProgram text = some statements ∧
      ¬Access.Initialized Check.libraryWords (programAccesses statements)) ∧
    ∃ text statements,
      Node.ofText (Node.source (.program selfNaming)) = .ok (.program selfNaming) ∧
      (Node.program selfNaming).check = .ok () ∧
      (Node.program selfNaming).code .standard = .ok text ∧ readProgram text = some statements ∧
      ¬Access.Initialized Check.libraryWords (programAccesses statements) := by
  constructor
  · have hx : IsName "x" := isName_of_isAsciiWord (by decide) (by decide)
    have hsource := ofText_declarationOf (.intro (k := .int) (by decide) ⟨"x", rfl, hx⟩
      (by simp [NameRule.window, NameRule.IsWindow]) (isExpr_name hx)) (by simp [lexemes])
    have hc : (Node.program selfReading).check = .ok () := rfl
    have hmeets : (Node.program selfReading).Meets (.varDecl (some .int) "x" (.variable "x")) :=
      Meets.self.inside (by simp [checked_program, selfReading, declarationOf, drawing])
    obtain ⟨text, statements, htext, hread, -, hiff⟩ := exists_code_initialized_iff hsource hc
    refine ⟨text, statements, hsource, hc, hmeets, fun h => ?_, htext, hread, ?_⟩
    · exact (initialized_accesses_iff hc).2.mp h _ _ _ hmeets .self
    · rw [hiff]
      decide
  · have hred : IsName "red" := isName_of_isAsciiWord (by decide) (by decide)
    have hsource := ofText_declarationOf (.intro (k := .color) (by decide) ⟨"red", rfl, hred⟩
      (by simp [NameRule.window, NameRule.IsWindow]) (.hue ⟨.red, rfl⟩)) (by simp [lexemes])
    have hc : (Node.program selfNaming).check = .ok () := rfl
    obtain ⟨text, statements, htext, hread, -, hiff⟩ := exists_code_initialized_iff hsource hc
    refine ⟨text, statements, hsource, hc, htext, hread, ?_⟩
    rw [hiff]
    decide

end DrawPlus
