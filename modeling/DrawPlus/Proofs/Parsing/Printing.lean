import DrawPlus.Proofs.Parsing.WindowNames
import DrawPlus.Proofs.Scanning.Rendering

/-!
# Printing programs

A tree is printed as lexemes with a blank after each: every statement ends in a semicolon, and an
operand that is itself an operation stands in parentheses. What is printed is derived by the grammar
as the tree it was printed from, and so it is read back, unless the tree computes a remainder.
-/

namespace DrawPlus

variable {w : String} {n : Node} {ns : List Node}

namespace Lexeme

def word (w : String) : Lexeme := .words w []

/-- Lexemes between two signs. -/
def enclosed (a z : Kind) (ls : List Lexeme) : List Lexeme := .sign a :: (ls ++ [.sign z])

abbrev inParens (ls : List Lexeme) : List Lexeme := enclosed .leftParen .rightParen ls

abbrev inBraces (ls : List Lexeme) : List Lexeme := enclosed .leftBrace .rightBrace ls

end Lexeme

/-- The first word of the language for a kind. -/
def Kind.word (k : Kind) : String := ((keywords.find? fun e => e.2 == k).map Prod.fst).getD ""

namespace Node

open Lexeme

/-- Parentheses for a node that is an operation. -/
def asOperand : Node → List Lexeme → List Lexeme
  | .binary .., ls => inParens ls
  | _, ls => ls

mutual

/-- What a node is printed as, without the semicolon at the end of a statement. -/
def lexemes : Node → List Lexeme
  | .absent | .bare => []
  | .program statements => lexemesAll statements
  | .varDecl type name init =>
    word "var" :: word (type.elim "" Kind.word) :: word name.display :: .sign .assign ::
      init.lexemes
  | .assign name value => word name.display :: .sign .assign :: value.lexemes
  | .cursorCreation name x y =>
    word "cursor" :: word name.display :: .sign .assign :: word "create_cursor" ::
      inParens (x.lexemes ++ .sign .comma :: y.lexemes)
  | .cursorMethod cursor method given =>
    .words cursor.display [method.display] :: inParens (lexemesListed given)
  | .drawCommand cursor shape given =>
    .words cursor.display [shape.display] :: inParens (lexemesListed given)
  | .branch condition body alternatives otherwise =>
    word "if" :: (inParens condition.lexemes ++ (inBraces (lexemesAll body) ++
      (lexemesArms alternatives ++ lexemesOtherwise otherwise)))
  | .whileLoop condition body =>
    word "while" :: (inParens condition.lexemes ++ inBraces (lexemesAll body))
  | .forLoop init condition update body =>
    word "for" :: (inParens (init.lexemes ++ .sign .semicolon :: (condition.lexemes ++
      .sign .semicolon :: update.lexemes)) ++ inBraces (lexemesAll body))
  | .binary left operator right =>
    asOperand left left.lexemes ++ .sign operator :: asOperand right right.lexemes
  | .number value => [.number value]
  | .text value | .truth value | .variable value => [word value.display]
  | .color name components =>
    match components with
    | none => [word name.display]
    | some given => word "rgb" :: inParens (lexemesListed given)

def lexemesAll : List Node → List Lexeme
  | [] => []
  | first :: rest => first.lexemes ++ .sign .semicolon :: lexemesAll rest

def lexemesListed : List Node → List Lexeme
  | [] => []
  | [node] => node.lexemes
  | first :: second :: rest => first.lexemes ++ .sign .comma :: lexemesListed (second :: rest)

/-- The further conditions of a branch with their statements. -/
def lexemesArms : List (Node × List Node) → List Lexeme
  | [] => []
  | (condition, body) :: rest =>
    word "elif" :: (inParens condition.lexemes ++ (inBraces (lexemesAll body) ++ lexemesArms rest))

/-- The statements of a branch for when no condition holds. -/
def lexemesOtherwise : Option (List Node) → List Lexeme
  | none => []
  | some block => word "else" :: inBraces (lexemesAll block)

end

def source (tree : Node) : String := String.ofList (spaced tree.lexemes)

end Node

/-- What can be printed: as in a text, but the numbers are integers that are not too long, and
comparisons are no expressions. -/
def Vocabulary.printable : Vocabulary :=
  { lexed with
    number := fun v => ∃ n : ℕ, v = .int n ∧ n < 10 ^ maxIntegerDigits
    operator := fun op => op.isArithmetic = true }

/-! ## Words of the language -/

theorem isName_of_isAsciiWord (h : isAsciiWord w.toList = true) (hfree : keywords.lookup w = none) :
    IsName w :=
  ⟨isWord_of_isAsciiWord h, hfree⟩

theorem isAsciiWord_keyword : ∀ e ∈ keywords, isAsciiWord e.1.toList = true := by
  decide

theorem ofWord_of_isName (h : IsName w) : Kind.ofWord w = .identifier := by
  rw [Kind.ofWord, h.free]
  rfl

theorem ofWord_word : ∀ k ∈ [Kind.int, .float, .bool, .color], Kind.ofWord k.word = k := by
  decide

theorem ofWord_hue : ∀ h ∈ Hue.all, Kind.ofWord h.name = .hue h := by
  decide

theorem ofWord_changing : ∀ m ∈ Node.changeWords, Kind.ofWord m ∈ Grammar.changing := by
  decide

theorem ofWord_drawing : ∀ m ∈ Node.drawWords, Kind.ofWord m ∈ Grammar.drawing := by
  decide

/-! ## Tokens that say what lexemes say -/

/-- The tokens say what the lexemes say. -/
def Spells (ts : List Token) (ls : List Lexeme) : Prop := ts.map Token.said = ls.flatMap Lexeme.said

namespace Spells

open Lexeme

variable {ts : List Token} {ls ms : List Lexeme}

theorem nil (h : Spells ts []) : ts = [] := List.map_eq_nil_iff.mp h

theorem append (h : Spells ts (ls ++ ms)) :
    ∃ us vs, ts = us ++ vs ∧ Spells us ls ∧ Spells vs ms := by
  rw [Spells, List.flatMap_append] at h
  exact List.map_eq_append_iff.mp h

theorem sign {k : Kind} (h : Spells ts (.sign k :: ls)) :
    ∃ t us, ts = t :: us ∧ t.kind = k ∧ Spells us ls := by
  obtain ⟨t, us, rfl, ht, hus⟩ := List.map_eq_cons_iff.mp h
  exact ⟨t, us, rfl, congrArg Prod.fst ht, hus⟩

theorem number {v : Value} (h : Spells ts (.number v :: ls)) :
    ∃ t us, ts = t :: us ∧ t.kind = .number ∧ t.value = v ∧ Spells us ls := by
  obtain ⟨t, us, rfl, ht, hus⟩ := List.map_eq_cons_iff.mp h
  exact ⟨t, us, rfl, congrArg Prod.fst ht, congrArg Prod.snd ht, hus⟩

theorem word {w : String} (h : Spells ts (word w :: ls)) :
    ∃ t us, ts = t :: us ∧ t.kind = Kind.ofWord w ∧ t.value = .text w ∧ Spells us ls := by
  obtain ⟨t, us, rfl, ht, hus⟩ := List.map_eq_cons_iff.mp h
  exact ⟨t, us, rfl, congrArg Prod.fst ht, congrArg Prod.snd ht, hus⟩

theorem dotted {m : String} (h : Spells ts (.words w [m] :: ls)) :
    ∃ x d t us, ts = x :: d :: t :: us ∧ x.kind = Kind.ofWord w ∧ x.value = .text w ∧
      d.kind = .dot ∧ t.kind = Kind.ofWord m ∧ t.value = .text m ∧ Spells us ls := by
  obtain ⟨x, us, rfl, hx, h⟩ := List.map_eq_cons_iff.mp h
  obtain ⟨d, us, rfl, hd, h⟩ := List.map_eq_cons_iff.mp h
  obtain ⟨t, us, rfl, ht, h⟩ := List.map_eq_cons_iff.mp h
  exact ⟨x, d, t, us, rfl, congrArg Prod.fst hx, congrArg Prod.snd hx, congrArg Prod.fst hd,
    congrArg Prod.fst ht, congrArg Prod.snd ht, h⟩

theorem enclosed {a z : Kind} (h : Spells ts (enclosed a z ls)) :
    ∃ p us q, ts = p :: (us ++ [q]) ∧ p.kind = a ∧ Spells us ls ∧ q.kind = z := by
  obtain ⟨p, ts, rfl, hp, h⟩ := h.sign
  obtain ⟨us, qs, rfl, hus, h⟩ := h.append
  obtain ⟨q, qs, rfl, hq, h⟩ := h.sign
  obtain rfl := h.nil
  exact ⟨p, us, q, rfl, hp, hus, hq⟩

end Spells

/-! ## From printed trees to derivations -/

namespace Node

open Grammar Lexeme

/-- What an expression is printed as is derived as a sum, and with the parentheses of an operand as
a factor. -/
def Derived (n : Node) : Prop :=
  (∀ ts, Spells ts n.lexemes → Sum ts n) ∧ ∀ ts, Spells ts (asOperand n n.lexemes) → Factor ts n

theorem derived_of_factor (hop : asOperand n n.lexemes = n.lexemes)
    (h : ∀ ts, Spells ts n.lexemes → Factor ts n) : Derived n := by
  refine ⟨fun ts hts => .product (.factor (h ts hts)), ?_⟩
  rw [hop]
  exact h

theorem derived_binary {l r : Node} {op : Kind} (hl : Derived l) (hop : op.isArithmetic = true)
    (hr : Derived r) : Derived (.binary l op r) := by
  have hsum : ∀ ts, Spells ts (Node.binary l op r).lexemes → Sum ts (.binary l op r) := by
    intro ts hts
    obtain ⟨ls, us, rfl, hls, hts⟩ := hts.append
    obtain ⟨t, rs, rfl, rfl, hrs⟩ := hts.sign
    have hleft := hl.2 ls hls
    have hright := hr.2 rs hrs
    simp only [Kind.isArithmetic, decide_eq_true_eq, List.mem_cons, List.not_mem_nil,
      or_false] at hop
    rcases hop with hop | hop | hop
    · exact .more (.product (.factor hleft)) (by simp [hop]) (.factor hright)
    · exact .more (.product (.factor hleft)) (by simp [hop]) (.factor hright)
    · exact .product (.more (.factor hleft) (by simpa using hop) hright)
  refine ⟨hsum, fun ts hts => ?_⟩
  obtain ⟨p, us, q, rfl, hp, hus, hq⟩ := hts.enclosed
  exact .group hp (hsum us hus) hq

theorem IsExpr.derived (h : IsExpr .printable n) : Derived n := by
  induction h with
  | number _ =>
    refine derived_of_factor rfl fun ts hts => ?_
    obtain ⟨t, us, rfl, hk, hv, hts⟩ := hts.number
    obtain rfl := hts.nil
    exact hv ▸ .number hk
  | truth hw =>
    refine derived_of_factor rfl fun ts hts => ?_
    obtain ⟨t, us, rfl, hk, hv, hts⟩ := hts.word
    obtain rfl := hts.nil
    rcases hw with rfl | rfl
    · exact hv ▸ .truth (hk.trans rfl)
    · exact hv ▸ .truth (hk.trans rfl)
  | hue hv =>
    obtain ⟨c, rfl⟩ := hv
    refine derived_of_factor rfl fun ts hts => ?_
    obtain ⟨t, us, rfl, hk, hv, hts⟩ := hts.word
    obtain rfl := hts.nil
    exact hv ▸ .hue (hk.trans (ofWord_hue c (Token.Faithful.mem_all_hue c)))
  | mixed hr hg hb ihr ihg ihb =>
    refine derived_of_factor rfl fun ts hts => ?_
    obtain ⟨w, us, rfl, hk, hv, hts⟩ := hts.word
    obtain ⟨p, us, q, rfl, hp, hts, hq⟩ := hts.enclosed
    obtain ⟨rs, us, rfl, hrs, hts⟩ := hts.append
    obtain ⟨c, us, rfl, hc, hts⟩ := hts.sign
    obtain ⟨gs, us, rfl, hgs, hts⟩ := hts.append
    obtain ⟨d, us, rfl, hd, hbs⟩ := hts.sign
    have hf := Factor.mixed (hk.trans rfl) hp (ihr.1 rs hrs) hc (ihg.1 gs hgs) hd (ihb.1 us hbs) hq
    simpa using hf
  | name hx =>
    obtain ⟨w, rfl, hw⟩ := hx
    refine derived_of_factor rfl fun ts hts => ?_
    obtain ⟨t, us, rfl, hk, hv, hts⟩ := hts.word
    obtain rfl := hts.nil
    exact hv ▸ .variable (hk.trans (ofWord_of_isName hw))
  | binary _ hop _ ihl ihr => exact derived_binary ihl hop ihr

theorem IsTest.condition (h : IsTest .printable n) {ts : List Token} (hts : Spells ts n.lexemes) :
    Condition ts n := by
  cases h with
  | expr he => exact .sum (he.derived.1 ts hts)
  | comparison hl hop hr =>
    obtain ⟨ls, us, rfl, hls, hts⟩ := hts.append
    obtain ⟨t, rs, rfl, rfl, hrs⟩ := hts.sign
    exact .comparison (.product (.factor (hl.derived.2 ls hls))) hop
      (.product (.factor (hr.derived.2 rs hrs)))

theorem guarded_of_spells (h : IsTest .printable n) {ts : List Token}
    (hts : Spells ts (inParens n.lexemes)) : Guarded ts n := by
  obtain ⟨p, us, q, rfl, hp, hus, hq⟩ := hts.enclosed
  exact .intro hp (h.condition hus) hq

theorem IsAssignment.derived {n : Node} (h : IsAssignment .printable n) {ts : List Token}
    (hts : Spells ts n.lexemes) : Assignment ts n := by
  obtain ⟨⟨w, rfl, hw⟩, he⟩ := h
  obtain ⟨x, us, rfl, hx, hv, hts⟩ := hts.word
  obtain ⟨a, us, rfl, ha, hus⟩ := hts.sign
  have h := Assignment.plain (hx.trans (ofWord_of_isName hw)) ha (he.derived.1 us hus)
  rwa [hv] at h

theorem IsDeclaration.derived {n : Node} (h : IsDeclaration .printable n) {ts : List Token}
    (hts : Spells ts n.lexemes) {z : Token} (hz : z.kind = .semicolon) :
    Declaration .window (ts ++ [z]) n := by
  obtain @⟨k, _, e, hk, ⟨w, rfl, hw⟩, hd, he⟩ := h
  obtain ⟨v, us, rfl, hv, -, hts⟩ := hts.word
  obtain ⟨t, us, rfl, ht, -, hts⟩ := hts.word
  obtain ⟨x, us, rfl, hx, hxv, hts⟩ := hts.word
  obtain ⟨a, us, rfl, ha, hus⟩ := hts.sign
  have ht : t.kind = k := ht.trans (ofWord_word k hk)
  have hxv : x.value = .text w := hxv
  rw [← ht, ← hxv] at hd ⊢
  exact .intro hv (ht ▸ hk) (hx.trans (ofWord_of_isName hw)) ha (he.derived.1 us hus) hd hz

theorem listed_of_spells (h : ∀ m ∈ n :: ns, IsExpr .printable m) {ts : List Token}
    (hts : Spells ts (lexemesListed (n :: ns))) : Listed ts (n :: ns) := by
  induction ns generalizing n ts with
  | nil => exact .one ((h n (by simp)).derived.1 ts hts)
  | cons m ns ih =>
    rw [List.forall_mem_cons] at h
    obtain ⟨us, vs, rfl, hus, hts⟩ := hts.append
    obtain ⟨c, vs, rfl, hc, hvs⟩ := hts.sign
    exact .more (h.1.derived.1 us hus) hc (ih h.2 hvs)

theorem arguments_of_spells (h : ∀ n ∈ ns, IsExpr .printable n) {ts : List Token}
    (hts : Spells ts (lexemesListed ns)) : Arguments ts ns := by
  cases ns with
  | nil =>
    obtain rfl := hts.nil
    exact .none
  | cons n ns => exact .some (listed_of_spells h hts)

/-- What a statement is printed as is derived, with its semicolon, as the statement. -/
def DerivedStatement (n : Node) : Prop :=
  ∀ ts z, Spells ts n.lexemes → z.kind = .semicolon → Statement .window (ts ++ [z]) n

theorem statements_of_spells (h : ∀ n ∈ ns, DerivedStatement n) {ts : List Token}
    (hts : Spells ts (lexemesAll ns)) : Statements .window ts ns := by
  induction ns generalizing ts with
  | nil =>
    obtain rfl := hts.nil
    exact .nil
  | cons n ns ih =>
    rw [List.forall_mem_cons] at h
    obtain ⟨us, vs, rfl, hus, hts⟩ := hts.append
    obtain ⟨z, vs, rfl, hz, hvs⟩ := hts.sign
    have hn := h.1 us z hus hz
    simpa using Statements.cons hn (ih h.2 hvs)

theorem block_of_spells (h : ∀ n ∈ ns, DerivedStatement n) {ts : List Token}
    (hts : Spells ts (inBraces (lexemesAll ns))) : Block .window ts ns := by
  obtain ⟨p, us, q, rfl, hp, hus, hq⟩ := hts.enclosed
  exact .intro hp (statements_of_spells h hus) hq

theorem arms_of_spells {arms : List (Node × List Node)}
    (ht : ∀ arm ∈ arms, IsTest .printable arm.1)
    (h : ∀ arm ∈ arms, ∀ n ∈ arm.2, DerivedStatement n) {ts : List Token}
    (hts : Spells ts (lexemesArms arms)) : Arms .window ts arms := by
  induction arms generalizing ts with
  | nil =>
    obtain rfl := hts.nil
    exact .nil
  | cons arm arms ih =>
    rw [List.forall_mem_cons] at ht h
    obtain ⟨w, us, rfl, hw, -, hts⟩ := hts.word
    obtain ⟨cs, us, rfl, hcs, hts⟩ := hts.append
    obtain ⟨bs, us, rfl, hbs, hus⟩ := hts.append
    exact .cons hw (guarded_of_spells ht.1 hcs) (block_of_spells h.1 hbs) (ih ht.2 h.2 hus)

theorem otherwise_of_spells {otherwise : Option (List Node)}
    (h : ∀ block ∈ otherwise, ∀ n ∈ block, DerivedStatement n) {ts : List Token}
    (hts : Spells ts (lexemesOtherwise otherwise)) : Otherwise .window ts otherwise := by
  cases otherwise with
  | none =>
    obtain rfl := hts.nil
    exact .none
  | some block =>
    obtain ⟨w, us, rfl, hw, -, hus⟩ := hts.word
    exact .some hw (block_of_spells (h block rfl) hus)

theorem call_of_spells {m : String} (hw : IsName w) (hns : ∀ n ∈ ns, IsExpr .printable n)
    {ts : List Token} {z : Token} (hz : z.kind = .semicolon)
    (hts : Spells ts (.words w [m] :: inParens (lexemesListed ns))) :
    ∃ x us, ts = x :: us ∧ x.value = .text w ∧
      (Kind.ofWord m ∈ drawing → Call (x :: (us ++ [z])) (.drawCommand w m ns)) ∧
      (Kind.ofWord m ∈ changing → Call (x :: (us ++ [z])) (.cursorMethod w m ns)) := by
  obtain ⟨x, d, t, us, rfl, hx, hxv, hd, ht, htv, hts⟩ := hts.dotted
  obtain ⟨p, us, q, rfl, hp, hus, hq⟩ := hts.enclosed
  have hx : x.kind = .identifier := hx.trans (ofWord_of_isName hw)
  have hgiven := arguments_of_spells hns hus
  refine ⟨x, _, rfl, hxv, fun hm => ?_, fun hm => ?_⟩
  · have hcall := Call.draw hx hd (ht ▸ hm) hp hgiven hq hz
    simpa [hxv, htv] using hcall
  · have hcall := Call.change hx hd (ht ▸ hm) hp hgiven hq hz
    simpa [hxv, htv] using hcall

theorem derived_creation {x y : Node} (hw : IsName w) (hx : IsExpr .printable x)
    (hy : IsExpr .printable y) : DerivedStatement (.cursorCreation w x y) := by
  intro ts z hts hz
  obtain ⟨c, us, rfl, hc, -, hts⟩ := hts.word
  obtain ⟨n, us, rfl, hn, hv, hts⟩ := hts.word
  obtain ⟨a, us, rfl, ha, hts⟩ := hts.sign
  obtain ⟨k, us, rfl, hk, -, hts⟩ := hts.word
  obtain ⟨p, us, q, rfl, hp, hts, hq⟩ := hts.enclosed
  obtain ⟨xs, us, rfl, hxs, hts⟩ := hts.append
  obtain ⟨s, ys, rfl, hs, hys⟩ := hts.sign
  have hcreation := Creation.intro hc (hn.trans (ofWord_of_isName hw)) ha hk hp
    (hx.derived.1 xs hxs) hs (hy.derived.1 ys hys) hq hz
  simpa [hv, Value.display] using Statement.creation hcreation

theorem derived_branch {test : Node} {body : List Node} {arms : List (Node × List Node)}
    {otherwise : Option (List Node)} (ht : IsTest .printable test)
    (hb : ∀ n ∈ body, DerivedStatement n) (hts : ∀ arm ∈ arms, IsTest .printable arm.1)
    (hbs : ∀ arm ∈ arms, ∀ n ∈ arm.2, DerivedStatement n)
    (ho : ∀ block ∈ otherwise, ∀ n ∈ block, DerivedStatement n) :
    DerivedStatement (.branch test body arms otherwise) := by
  intro ts z h hz
  obtain ⟨w, us, rfl, hw, -, h⟩ := h.word
  obtain ⟨cs, us, rfl, hcs, h⟩ := h.append
  obtain ⟨bs, us, rfl, hbody, h⟩ := h.append
  obtain ⟨as, os, rfl, has, hos⟩ := h.append
  have hbranch := Statement.branch hw (guarded_of_spells ht hcs) (block_of_spells hb hbody)
    (arms_of_spells hts hbs has) (otherwise_of_spells ho hos) hz
  simpa using hbranch

theorem derived_whileLoop {test : Node} {body : List Node} (ht : IsTest .printable test)
    (hb : ∀ n ∈ body, DerivedStatement n) : DerivedStatement (.whileLoop test body) := by
  intro ts z hts hz
  obtain ⟨w, us, rfl, hw, -, hts⟩ := hts.word
  obtain ⟨cs, bs, rfl, hcs, hbs⟩ := hts.append
  have hloop := Statement.whileLoop hw (guarded_of_spells ht hcs) (block_of_spells hb hbs) hz
  simpa using hloop

theorem derived_forLoop {init test update : Node} {body : List Node}
    (hi : IsStart .printable init) (ht : IsTest .printable test)
    (hu : IsAssignment .printable update) (hb : ∀ n ∈ body, DerivedStatement n) :
    DerivedStatement (.forLoop init test update body) := by
  intro ts z hts hz
  obtain ⟨w, us, rfl, hw, -, hts⟩ := hts.word
  obtain ⟨hs, bs, rfl, hhs, hbs⟩ := hts.append
  obtain ⟨p, us, q, rfl, hp, hus, hq⟩ := hhs.enclosed
  obtain ⟨is, us, rfl, his, hus⟩ := hus.append
  obtain ⟨s, us, rfl, hs, hus⟩ := hus.sign
  obtain ⟨cs, us, rfl, hcs, hus⟩ := hus.append
  obtain ⟨s', us, rfl, hs', hus⟩ := hus.sign
  have hstart : Start .window (is ++ [s]) init := by
    cases hi with
    | declaration hi => exact .declaration (hi.derived his hs)
    | assignment hi => exact .assignment (hi.derived his) hs
  have hloop := Statement.forLoop hw hp hstart (ht.condition hcs) hs' (hu.derived hus) hq
    (block_of_spells hb hbs) hz
  simpa using hloop

theorem IsStatement.derived {n : Node} (h : IsStatement .printable n) : DerivedStatement n := by
  induction h with
  | declaration hd => exact fun ts z hts hz => .declaration (hd.derived hts hz)
  | assignment hw hb he =>
    intro ts z hts hz
    have ha := (IsAssignment.intro hw he).derived hts
    obtain ⟨w, rfl, hw⟩ := hw
    obtain ⟨x, us, rfl, -, hx, -⟩ := hts.word
    exact .assignment ha (hx ▸ hb) hz
  | creation hw hx hy =>
    obtain ⟨w, rfl, hw⟩ := hw
    exact derived_creation hw hx hy
  | change hw hb hm hns =>
    obtain ⟨w, rfl, hw⟩ := hw
    obtain ⟨m, hm, rfl⟩ := hm
    intro ts z hts hz
    obtain ⟨x, us, rfl, hx, -, hcall⟩ := call_of_spells hw hns hz hts
    exact .call (hcall (ofWord_changing _ hm)) (hx ▸ hb)
  | draw hw hb hm hns =>
    obtain ⟨w, rfl, hw⟩ := hw
    obtain ⟨m, hm, rfl⟩ := hm
    intro ts z hts hz
    obtain ⟨x, us, rfl, hx, hcall, -⟩ := call_of_spells hw hns hz hts
    exact .call (hcall (ofWord_drawing _ hm)) (hx ▸ hb)
  | branch ht _ hts _ _ ihbody ihbodies iho => exact derived_branch ht ihbody hts ihbodies iho
  | whileLoop ht _ ih => exact derived_whileLoop ht ih
  | forLoop hi ht hu _ ih => exact derived_forLoop hi ht hu ih

end Node

end DrawPlus
