import DrawPlus.Proofs.Target.Lexing

/-!
# Reading generated text

A reader for the generated language. Operators bind as they do in C: products before sums, sums
before orderings, orderings before equalities, and operators of one level group to the left. A cast
binds its operand more tightly than any operator. The reader knows nothing about the parentheses and
the line breaks that the layout puts in, and reads expressions without them as well.

`readProgram_programText` says that it reads the text of a program as the statements that were
written. Each of its parts is shown to read the lexemes of a tree as the tree, with the lexemes that
follow left over. The bound on the depth of calls is met by four calls for each lexeme.
-/

namespace DrawPlus.Target.Read

variable {d : ℕ} {rest : List String} {e : Expr} {t : String}

/-! ## The reader -/

/-- How tightly an operator binds. -/
def level (op : String) : Option ℕ :=
  [("*", 4), ("/", 4), ("%", 4), ("+", 3), ("-", 3), ("<", 2), ("<=", 2), (">", 2), (">=", 2),
    ("==", 1), ("!=", 1)].lookup op

def skip (t : String) : List String → Option (List String)
  | [] => none
  | u :: us => if u = t then some us else none

/-- The type in parentheses with which a cast begins. -/
def castType : List String → Option (String × List String)
  | t :: close :: rest => if t ∈ castTypes ∧ close = ")" then some (t, rest) else none
  | _ => none

def isNumber (t : String) : Bool := t.toList.head?.any Char.isDigit

mutual

/-- An expression whose operators outside of parentheses bind at least as tightly as `least`. -/
def exprWithin : ℕ → ℕ → List String → Option (Expr × List String)
  | 0, _, _ => none
  | d + 1, least, ts => do
    let (left, ts) ← operandWithin d ts
    tailWithin d least left ts

/-- The operators and operands that follow an expression. -/
def tailWithin : ℕ → ℕ → Expr → List String → Option (Expr × List String)
  | 0, _, _, _ => none
  | _ + 1, _, left, [] => some (left, [])
  | d + 1, least, left, op :: ts =>
    match level op with
    | none => some (left, op :: ts)
    | some l =>
      if least ≤ l then do
        let (right, ts) ← exprWithin d (l + 1) ts
        tailWithin d least (.binary left op right) ts
      else some (left, op :: ts)

/-- A word, a number, a call, a cast or an expression in parentheses. -/
def operandWithin : ℕ → List String → Option (Expr × List String)
  | 0, _ => none
  | _ + 1, [] => none
  | d + 1, t :: ts =>
    if t = "(" then
      match castType ts with
      | some (type, ts) => do
        let (e, ts) ← operandWithin d ts
        return (.cast type e, ts)
      | none => do
        let (e, ts) ← exprWithin d 0 ts
        return (e, ← skip ")" ts)
    else if isNumber t then some (.constant t, ts)
    else if isWordText t.toList then
      match skip "(" ts with
      | some ts => do
        let (es, ts) ← argumentsWithin d ts
        return (.call t es, ts)
      | none => some (.word t, ts)
    else none

/-- Arguments, perhaps none, up to the closing parenthesis. -/
def argumentsWithin : ℕ → List String → Option (List Expr × List String)
  | 0, _ => none
  | d + 1, ts =>
    match skip ")" ts with
    | some ts => some ([], ts)
    | none => listWithin d ts

/-- Arguments, at least one, up to the closing parenthesis. -/
def listWithin : ℕ → List String → Option (List Expr × List String)
  | 0, _ => none
  | d + 1, ts => do
    let (e, ts) ← exprWithin d 0 ts
    match skip "," ts with
    | some ts => do
      let (es, ts) ← listWithin d ts
      return (e :: es, ts)
    | none => return ([e], ← skip ")" ts)

end

/-- A declaration, an assignment or a call. -/
def simpleWithin (d : ℕ) : List String → Option (Simple × List String)
  | w :: t :: ts =>
    if t = "=" then do
      let (e, ts) ← exprWithin d 0 ts
      return (.assign w e, ts)
    else if t = "(" then do
      let (es, ts) ← argumentsWithin d ts
      return (.call w es, ts)
    else if t = "->" then
      match ts with
      | m :: ts => do
        let (e, ts) ← exprWithin d 0 (← skip "=" ts)
        return (.assignMember w m e, ts)
      | [] => none
    else if t = "*" then
      match ts with
      | name :: ts => do
        let (e, ts) ← exprWithin d 0 (← skip "=" ts)
        return (.declare w true name e, ts)
      | [] => none
    else do
      let (e, ts) ← exprWithin d 0 (← skip "=" ts)
      return (.declare w false t e, ts)
  | _ => none

def testWithin (d : ℕ) (ts : List String) : Option (Expr × List String) := do
  let (e, ts) ← exprWithin d 0 (← skip "(" ts)
  return (e, ← skip ")" ts)

mutual

def stmtWithin : ℕ → List String → Option (Stmt × List String)
  | 0, _ => none
  | _ + 1, [] => none
  | d + 1, t :: ts =>
    if t = "if" then do
      let (test, ts) ← testWithin d ts
      let (body, ts) ← blockWithin d ts
      let (arms, otherwise, ts) ← elseWithin d ts
      return (.branch test body arms otherwise, ts)
    else if t = "while" then do
      let (test, ts) ← testWithin d ts
      let (body, ts) ← blockWithin d ts
      return (.whileLoop test body, ts)
    else if t = "for" then do
      let (init, ts) ← simpleWithin d (← skip "(" ts)
      let (test, ts) ← exprWithin d 0 (← skip ";" ts)
      let (update, ts) ← simpleWithin d (← skip ";" ts)
      let (body, ts) ← blockWithin d (← skip ")" ts)
      return (.forLoop init test update body, ts)
    else do
      let (s, ts) ← simpleWithin d (t :: ts)
      return (.simple s, ← skip ";" ts)

/-- The further conditions of a branch with their blocks, and its last block. -/
def elseWithin :
    ℕ → List String → Option (List (Expr × List Stmt) × Option (List Stmt) × List String)
  | 0, _ => none
  | d + 1, ts =>
    match skip "else" ts with
    | none => some ([], none, ts)
    | some ts =>
      match skip "if" ts with
      | some ts => do
        let (test, ts) ← testWithin d ts
        let (body, ts) ← blockWithin d ts
        let (arms, otherwise, ts) ← elseWithin d ts
        return ((test, body) :: arms, otherwise, ts)
      | none => do
        let (body, ts) ← blockWithin d ts
        return ([], some body, ts)

def blockWithin : ℕ → List String → Option (List Stmt × List String)
  | 0, _ => none
  | d + 1, ts => do
    let (body, ts) ← stmtsWithin d (← skip "\x7b" ts)
    return (body, ← skip "\x7d" ts)

/-- Statements up to a closing brace or the end. -/
def stmtsWithin : ℕ → List String → Option (List Stmt × List String)
  | 0, _ => none
  | _ + 1, [] => some ([], [])
  | d + 1, t :: ts =>
    if t = "\x7d" then some ([], t :: ts)
    else do
      let (s, ts) ← stmtWithin d (t :: ts)
      let (ss, ts) ← stmtsWithin d ts
      return (s :: ss, ts)

end

def statements (ts : List String) : Option (List Stmt) := do
  let (ss, rest) ← stmtsWithin (4 * ts.length + 4) ts
  if rest = [] then return ss else none

/-! ## Reading the lexemes of expressions -/

@[simp] theorem skip_self (t : String) (ts : List String) : skip t (t :: ts) = some ts := by
  simp [skip]

theorem skip_of_ne {ts : List String} (h : ∀ u ∈ ts.head?, u ≠ t) : skip t ts = none := by
  cases ts with
  | nil => rfl
  | cons u us => simp [skip, h u rfl]

theorem ne_of_isWord {w : String} (h : IsWord w) (ht : ¬IsWord t) : w ≠ t := by
  rintro rfl
  exact ht h

theorem isNumber_of_isWord {w : String} (h : IsWord w) : isNumber w = false := by
  obtain ⟨c, rest, hw, hc, -⟩ := h
  rw [isNumber, hw]
  by_contra hd
  have hd : c.isDigit = true := by simpa using hd
  rw [isWordStart_of_isDigit hd] at hc
  cases hc

theorem isNumber_of_isNumeral (h : IsNumeral t.toList) : isNumber t = true := by
  obtain ⟨c, body, exponent, ht, hc, -⟩ := h
  simp [isNumber, ht, hc]

theorem ne_of_isNumeral {u : String} (h : IsNumeral t.toList) (hu : isNumber u = false) :
    t ≠ u := by
  rintro rfl
  rw [isNumber_of_isNumeral h] at hu
  cases hu

/-- No lexeme of punctuation is a word or a number. -/
theorem punctuation : ∀ t ∈ ["(", ")", ",", ";", "\x7b", "\x7d", "=", "->", "*"],
    ¬IsWord t ∧ isNumber t = false ∧ t ∉ castTypes := by
  simp [isWord_iff, isWordText, isWordStart_of_ascii, isNumber, castTypes]

theorem level_of_operator : ∀ op ∈ operators, ∃ l, level op = some l := by
  intro op hop
  have h : ∀ op ∈ operators, (level op).isSome = true := by decide
  exact Option.isSome_iff_exists.mp (h op hop)

/-- An expression can end before the lexemes. -/
def Ends (ts : List String) : Prop := ∀ t ∈ ts.head?, level t = none ∧ t ≠ "("

theorem ends_cons {t : String} (h : t ∈ [")", ",", ";"]) (ts : List String) : Ends (t :: ts) := by
  have hall : ∀ t ∈ [")", ",", ";"], level t = none ∧ t ≠ "(" := by decide
  rintro _ ⟨⟩
  exact hall t h

theorem exprWithin_of_operandWithin {least : ℕ} {ts : List String}
    (h : operandWithin d ts = some (e, rest)) (hd : 0 < d) (hr : Ends rest) :
    exprWithin (d + 1) least ts = some (e, rest) := by
  obtain ⟨d, rfl⟩ : ∃ k, d = k + 1 := ⟨d - 1, by omega⟩
  have ht : tailWithin (d + 1) least e rest = some (e, rest) := by
    cases rest with
    | nil => rfl
    | cons t rest => simp [tailWithin, (hr t rfl).1]
  simpa [exprWithin, h] using ht

theorem castType_of_notMem (h : t ∉ castTypes) (ts : List String) : castType (t :: ts) = none := by
  cases ts with
  | nil => rfl
  | cons u us => simp [castType, h]

/-- The left operand of an operation in parentheses is not mistaken for the type of a cast. -/
theorem castType_tokens {l : Expr} (h : l.WF) {op : String} (hop : op ∈ operators)
    (ts : List String) : castType (l.tokens ++ op :: ts) = none := by
  have hclose : op ≠ ")" := by
    rintro rfl
    revert hop
    decide
  have hopen : "(" ∉ castTypes := by decide
  cases h with
  | word _ | constant _ => simp [Expr.tokens, castType, hclose]
  | binary _ _ _ => exact castType_of_notMem hopen _
  | cast _ _ => exact castType_of_notMem hopen _
  | call _ _ _ => simp [Expr.tokens, castType]

theorem head_tokens (h : e.WF) (ts : List String) : ∀ t ∈ (e.tokens ++ ts).head?, t ≠ ")" := by
  obtain ⟨hword, hnumber, -⟩ := punctuation ")" (by simp)
  cases h with
  | word hw =>
    rintro _ ⟨⟩
    exact ne_of_isWord hw hword
  | constant ht =>
    rintro _ ⟨⟩
    exact ne_of_isNumeral ht hnumber
  | binary _ _ _ | cast _ _ =>
    rintro _ ⟨⟩
    decide
  | call hf _ _ =>
    rintro _ ⟨⟩
    exact ne_of_isWord hf hword

theorem length_tokens_pos (h : e.WF) : 0 < e.tokens.length := by
  cases h <;> simp [Expr.tokens]

theorem listWithin_tokens {es : List Expr} (hne : es ≠ []) (hwf : ∀ e ∈ es, e.WF)
    (h : ∀ e ∈ es, ∀ d rest, 4 * e.tokens.length ≤ d → (∀ t ∈ rest.head?, t ≠ "(") →
      operandWithin d (e.tokens ++ rest) = some (e, rest)) (d : ℕ) (rest : List String)
    (hd : 4 * (Expr.tokensAll es).length + 2 ≤ d) :
    listWithin d (Expr.tokensAll es ++ ")" :: rest) = some (es, rest) := by
  induction es generalizing d with
  | nil => exact absurd rfl hne
  | cons e es ih =>
    rw [List.forall_mem_cons] at h hwf
    have hpos := length_tokens_pos hwf.1
    cases es with
    | nil =>
      rw [Expr.tokensAll] at hd ⊢
      obtain ⟨d, rfl⟩ : ∃ k, d = k + 2 := ⟨d - 2, by omega⟩
      have he : exprWithin (d + 1) 0 (e.tokens ++ ")" :: rest) = some (e, ")" :: rest) :=
        exprWithin_of_operandWithin (h.1 d _ (by omega) (by simp)) (by omega)
          (ends_cons (by simp) _)
      simp [listWithin, he, skip]
    | cons e' es =>
      rw [Expr.tokensAll, List.length_append, List.length_cons] at hd
      obtain ⟨d, rfl⟩ : ∃ k, d = k + 2 := ⟨d - 2, by omega⟩
      have he :
          exprWithin (d + 1) 0 (e.tokens ++ "," :: (Expr.tokensAll (e' :: es) ++ ")" :: rest)) =
          some (e, "," :: (Expr.tokensAll (e' :: es) ++ ")" :: rest)) :=
        exprWithin_of_operandWithin (h.1 d _ (by omega) (by simp)) (by omega)
          (ends_cons (by simp) _)
      have hl := ih (by simp) hwf.2 h.2 (d + 1) (by omega)
      rw [Expr.tokensAll, List.append_assoc, List.cons_append, listWithin, he]
      simp [hl]

theorem argumentsWithin_of_listWithin {es : List Expr} (hne : es ≠ []) (hwf : ∀ e ∈ es, e.WF)
    {d : ℕ} {rest : List String}
    (h : listWithin d (Expr.tokensAll es ++ ")" :: rest) = some (es, rest)) :
    argumentsWithin (d + 1) (Expr.tokensAll es ++ ")" :: rest) = some (es, rest) := by
  have hhead : ∀ t ∈ (Expr.tokensAll es ++ ")" :: rest).head?, t ≠ ")" := by
    cases es with
    | nil => exact absurd rfl hne
    | cons e es =>
      rw [List.forall_mem_cons] at hwf
      cases es with
      | nil => exact head_tokens hwf.1 _
      | cons e' es =>
        rw [Expr.tokensAll, List.append_assoc]
        exact head_tokens hwf.1 _
  rw [argumentsWithin, skip_of_ne hhead]
  exact h

theorem operandWithin_word {w : String} (h : IsWord w) (d : ℕ) (ts : List String) :
    operandWithin (d + 1) (w :: ts) = match skip "(" ts with
      | some ts => (argumentsWithin d ts).map fun x => (.call w x.1, x.2)
      | none => some (.word w, ts) := by
  have hopen : w ≠ "(" := ne_of_isWord h (punctuation "(" (by simp)).1
  rw [operandWithin, if_neg hopen, isNumber_of_isWord h, if_neg (by simp),
    if_pos (isWord_iff.mp h)]
  cases skip "(" ts with
  | none => rfl
  | some ts =>
    simp only
    cases argumentsWithin d ts <;> rfl

theorem operandWithin_tokens (h : e.WF) : ∀ d rest, 4 * e.tokens.length ≤ d →
    (∀ t ∈ rest.head?, t ≠ "(") → operandWithin d (e.tokens ++ rest) = some (e, rest) := by
  induction h with
  | @word w hw =>
    intro d rest hd hr
    rw [Expr.tokens, List.length_singleton] at hd
    obtain ⟨d, rfl⟩ : ∃ k, d = k + 1 := ⟨d - 1, by omega⟩
    rw [Expr.tokens, List.singleton_append, operandWithin_word hw, skip_of_ne hr]
  | @constant t ht =>
    intro d rest hd hr
    rw [Expr.tokens, List.length_singleton] at hd
    obtain ⟨d, rfl⟩ : ∃ k, d = k + 1 := ⟨d - 1, by omega⟩
    have hopen : t ≠ "(" := ne_of_isNumeral ht (punctuation "(" (by simp)).2.1
    rw [Expr.tokens, List.singleton_append, operandWithin, if_neg hopen,
      if_pos (isNumber_of_isNumeral ht)]
  | @binary l r op hl hop hr ihl ihr =>
    intro d rest hd _
    have hposl := length_tokens_pos hl
    have hposr := length_tokens_pos hr
    simp only [Expr.tokens, List.length_cons, List.length_append, List.length_nil] at hd
    obtain ⟨d, rfl⟩ : ∃ k, d = k + 4 := ⟨d - 4, by omega⟩
    obtain ⟨k, hk⟩ := level_of_operator op hop
    have hopen : op ≠ "(" := by
      rintro rfl
      revert hop
      decide
    have hleft := ihl (d + 2) (op :: (r.tokens ++ ")" :: rest)) (by omega)
      (by rintro _ ⟨⟩; exact hopen)
    have hright : exprWithin (d + 1) (k + 1) (r.tokens ++ ")" :: rest) = some (r, ")" :: rest) :=
      exprWithin_of_operandWithin (ihr d _ (by omega) (by simp)) (by omega) (ends_cons (by simp) _)
    have hclose : level ")" = none := by decide
    have htail : tailWithin (d + 2) 0 l (op :: (r.tokens ++ ")" :: rest)) =
        some (.binary l op r, ")" :: rest) := by
      simp [tailWithin, hk, hright, hclose]
    have hexpr : exprWithin (d + 3) 0 (l.tokens ++ op :: (r.tokens ++ ")" :: rest)) =
        some (.binary l op r, ")" :: rest) := by
      simp [exprWithin, hleft, htail]
    simp [Expr.tokens, operandWithin, castType_tokens hl hop, hexpr]
  | @cast type e ht he ih =>
    intro d rest hd hr
    simp only [Expr.tokens, List.length_cons] at hd
    obtain ⟨d, rfl⟩ : ∃ k, d = k + 1 := ⟨d - 1, by omega⟩
    have he := ih d rest (by omega) hr
    simp [Expr.tokens, operandWithin, castType, ht, he]
  | @call f es hf hne hes ih =>
    intro d rest hd _
    simp only [Expr.tokens, List.length_cons, List.length_append, List.length_nil] at hd
    obtain ⟨d, rfl⟩ : ∃ k, d = k + 2 := ⟨d - 2, by omega⟩
    have hlist := listWithin_tokens hne hes ih d rest (by omega)
    have hargs := argumentsWithin_of_listWithin hne hes hlist
    simp [Expr.tokens, operandWithin_word hf, hargs]

theorem exprWithin_tokens (h : e.WF) {least : ℕ} (hd : 4 * e.tokens.length < d) (hr : Ends rest) :
    exprWithin d least (e.tokens ++ rest) = some (e, rest) := by
  have hpos := length_tokens_pos h
  obtain ⟨d, rfl⟩ : ∃ k, d = k + 1 := ⟨d - 1, by omega⟩
  exact exprWithin_of_operandWithin
    (operandWithin_tokens h d rest (by omega) fun t ht => (hr t ht).2)
    (by omega) hr

theorem argumentsWithin_tokens {es : List Expr} (hne : es ≠ []) (h : ∀ e ∈ es, e.WF)
    (hd : 4 * (Expr.tokensAll es).length + 3 ≤ d) :
    argumentsWithin d (Expr.tokensAll es ++ ")" :: rest) = some (es, rest) := by
  obtain ⟨d, rfl⟩ : ∃ k, d = k + 1 := ⟨d - 1, by omega⟩
  exact argumentsWithin_of_listWithin hne h
    (listWithin_tokens hne h (fun e he => operandWithin_tokens (h e he)) d rest (by omega))

/-! ## Reading the lexemes of statements -/

theorem simpleWithin_tokens {s : Simple} (h : s.WF) {d : ℕ} {rest : List String}
    (hd : 4 * s.tokens.length ≤ d) (hr : Ends rest) :
    simpleWithin d (s.tokens ++ rest) = some (s, rest) := by
  cases h with
  | @declare type name isPointer e ht _ hn he =>
    have hname {t : String} (h : t ∈ ["(", ")", ",", ";", "\x7b", "\x7d", "=", "->", "*"]) :
        name ≠ t := ne_of_isWord hn (punctuation t h).1
    cases isPointer with
    | true =>
      simp only [Simple.tokens, List.length_cons, List.length_append] at hd
      have hexpr : exprWithin d 0 (e.tokens ++ rest) = some (e, rest) :=
        exprWithin_tokens he (by omega) hr
      simp [Simple.tokens, simpleWithin, hexpr]
    | false =>
      simp only [Simple.tokens, List.length_cons, List.length_append] at hd
      have hexpr : exprWithin d 0 (e.tokens ++ rest) = some (e, rest) :=
        exprWithin_tokens he (by omega) hr
      simp [Simple.tokens, simpleWithin, hexpr, hname]
  | @assign w e _ _ he =>
    simp only [Simple.tokens, List.length_cons] at hd
    have hexpr : exprWithin d 0 (e.tokens ++ rest) = some (e, rest) :=
      exprWithin_tokens he (by omega) hr
    simp [Simple.tokens, simpleWithin, hexpr]
  | @assignMember w m e _ _ _ he =>
    simp only [Simple.tokens, List.length_cons] at hd
    have hexpr : exprWithin d 0 (e.tokens ++ rest) = some (e, rest) :=
      exprWithin_tokens he (by omega) hr
    simp [Simple.tokens, simpleWithin, hexpr]
  | @call f es _ _ hne hes =>
    simp only [Simple.tokens, List.length_cons, List.length_append, List.length_nil] at hd
    have hargs : argumentsWithin d (Expr.tokensAll es ++ ")" :: rest) = some (es, rest) :=
      argumentsWithin_tokens hne hes (by omega)
    simp [Simple.tokens, simpleWithin, hargs]

theorem testWithin_tokens (h : e.WF) (hd : 4 * e.tokens.length < d) :
    testWithin d ("(" :: (e.tokens ++ ")" :: rest)) = some (e, rest) := by
  have hexpr : exprWithin d 0 (e.tokens ++ ")" :: rest) = some (e, ")" :: rest) :=
    exprWithin_tokens h hd (ends_cons (by simp) _)
  simp [testWithin, hexpr]

theorem head_simple {s : Simple} (h : s.WF) :
    ∃ w ts, s.tokens = w :: ts ∧ IsWord w ∧ w ∉ reserved := by
  cases h with
  | declare hw hr _ _ | assign hw hr _ | assignMember hw hr _ _ | call hw hr _ _ =>
    exact ⟨_, _, rfl, hw, hr⟩

/-- No statement begins with a word that belongs to the statement before it. -/
theorem head_stmt {s : Stmt} (h : s.WF) : ∃ t ts, s.tokens = t :: ts ∧ t ≠ "else" ∧ t ≠ "\x7d" := by
  cases h with
  | simple hs =>
    obtain ⟨w, ts, htokens, hw, hr⟩ := head_simple hs
    refine ⟨w, ts ++ [";"], by rw [Stmt.tokens, htokens, List.cons_append], ?_,
      ne_of_isWord hw (punctuation _ (by simp)).1⟩
    rintro rfl
    exact hr (by decide)
  | branch _ _ _ _ _ | whileLoop _ _ | forLoop _ _ _ _ => exact ⟨_, _, rfl, by decide, by decide⟩

/-- The statement is read from its lexemes, unless the branch it is could go on. -/
def ReadBack (s : Stmt) : Prop := ∀ d rest, 4 * s.tokens.length ≤ d →
  (∀ t ∈ rest.head?, t ≠ "else") → stmtWithin d (s.tokens ++ rest) = some (s, rest)

theorem stmtsWithin_tokens {ss : List Stmt} (hwf : ∀ s ∈ ss, s.WF) (h : ∀ s ∈ ss, ReadBack s)
    (hd : 4 * (Stmt.tokensAll ss).length < d) (hr : ∀ t ∈ rest.head?, t = "\x7d") :
    stmtsWithin d (Stmt.tokensAll ss ++ rest) = some (ss, rest) := by
  induction ss generalizing d with
  | nil =>
    obtain ⟨d, rfl⟩ : ∃ k, d = k + 1 := ⟨d - 1, by omega⟩
    cases rest with
    | nil => rfl
    | cons t rest =>
      obtain rfl := hr t rfl
      simp [Stmt.tokensAll, stmtsWithin]
  | cons s ss ih =>
    rw [List.forall_mem_cons] at hwf h
    obtain ⟨t, ts, ht, -, hbrace⟩ := head_stmt hwf.1
    simp only [Stmt.tokensAll, List.length_append] at hd
    have hlen : 0 < s.tokens.length := by simp [ht]
    obtain ⟨d, rfl⟩ : ∃ k, d = k + 1 := ⟨d - 1, by omega⟩
    have hnext : ∀ t ∈ (Stmt.tokensAll ss ++ rest).head?, t ≠ "else" := by
      cases ss with
      | nil =>
        intro t ht
        rw [hr t ht]
        decide
      | cons s' ss =>
        obtain ⟨t', ts', ht', helse, -⟩ := head_stmt (hwf.2 s' (by simp))
        rw [Stmt.tokensAll, ht']
        rintro _ ⟨⟩
        exact helse
    have hfirst := h.1 d (Stmt.tokensAll ss ++ rest) (by omega) hnext
    have hrest := ih hwf.2 h.2 (d := d) (by omega)
    rw [Stmt.tokensAll, List.append_assoc]
    rw [ht, List.cons_append] at hfirst ⊢
    rw [stmtsWithin, if_neg hbrace, hfirst]
    simp [hrest]

theorem blockWithin_tokens {ss : List Stmt} (hwf : ∀ s ∈ ss, s.WF) (h : ∀ s ∈ ss, ReadBack s)
    (hd : 4 * (Stmt.tokensAll ss).length + 1 < d) :
    blockWithin d ("\x7b" :: (Stmt.tokensAll ss ++ "\x7d" :: rest)) = some (ss, rest) := by
  obtain ⟨d, rfl⟩ : ∃ k, d = k + 1 := ⟨d - 1, by omega⟩
  have hbody : stmtsWithin d (Stmt.tokensAll ss ++ "\x7d" :: rest) = some (ss, "\x7d" :: rest) :=
    stmtsWithin_tokens hwf h (by omega) (by simp)
  simp [blockWithin, hbody]

theorem elseWithin_otherwise {otherwise : Option (List Stmt)}
    (hwf : ∀ block ∈ otherwise, ∀ s ∈ block, s.WF)
    (h : ∀ block ∈ otherwise, ∀ s ∈ block, ReadBack s)
    (hd : 4 * (Stmt.otherwiseTokens otherwise).length < d) (hr : ∀ t ∈ rest.head?, t ≠ "else") :
    elseWithin d (Stmt.otherwiseTokens otherwise ++ rest) = some ([], otherwise, rest) := by
  obtain ⟨d, rfl⟩ : ∃ k, d = k + 1 := ⟨d - 1, by omega⟩
  cases otherwise with
  | none => simp [Stmt.otherwiseTokens, elseWithin, skip_of_ne hr]
  | some block =>
    simp only [Stmt.otherwiseTokens, List.length_cons, List.length_append, List.length_nil] at hd
    have hblock : blockWithin d ("\x7b" :: (Stmt.tokensAll block ++ "\x7d" :: rest)) =
        some (block, rest) := blockWithin_tokens (hwf block rfl) (h block rfl) (by omega)
    have hskip : skip "if" ("\x7b" :: (Stmt.tokensAll block ++ "\x7d" :: rest)) = none :=
      skip_of_ne (by simp)
    simp [Stmt.otherwiseTokens, elseWithin, hskip, hblock]

theorem elseWithin_tokens {arms : List (Expr × List Stmt)} {otherwise : Option (List Stmt)}
    (htest : ∀ arm ∈ arms, arm.1.WF) (hwf : ∀ arm ∈ arms, ∀ s ∈ arm.2, s.WF)
    (h : ∀ arm ∈ arms, ∀ s ∈ arm.2, ReadBack s) (hwf' : ∀ block ∈ otherwise, ∀ s ∈ block, s.WF)
    (h' : ∀ block ∈ otherwise, ∀ s ∈ block, ReadBack s)
    (hd : 4 * ((Stmt.armTokens arms).length + (Stmt.otherwiseTokens otherwise).length) < d)
    (hr : ∀ t ∈ rest.head?, t ≠ "else") :
    elseWithin d (Stmt.armTokens arms ++ (Stmt.otherwiseTokens otherwise ++ rest)) =
      some (arms, otherwise, rest) := by
  induction arms generalizing d with
  | nil => exact elseWithin_otherwise hwf' h' (by simpa [Stmt.armTokens] using hd) hr
  | cons arm arms ih =>
    obtain ⟨test, body⟩ := arm
    simp only [List.forall_mem_cons] at htest hwf h
    simp only [Stmt.armTokens, List.length_cons, List.length_append] at hd
    obtain ⟨d, rfl⟩ : ∃ k, d = k + 1 := ⟨d - 1, by omega⟩
    have hmore := ih htest.2 hwf.2 h.2 (d := d) (by omega)
    have hblock : blockWithin d ("\x7b" :: (Stmt.tokensAll body ++ "\x7d" ::
        (Stmt.armTokens arms ++ (Stmt.otherwiseTokens otherwise ++ rest)))) =
        some (body, Stmt.armTokens arms ++ (Stmt.otherwiseTokens otherwise ++ rest)) :=
      blockWithin_tokens hwf.1 h.1 (by omega)
    have hfirst : testWithin d ("(" :: (test.tokens ++ ")" :: "\x7b" :: (Stmt.tokensAll body ++
        "\x7d" :: (Stmt.armTokens arms ++ (Stmt.otherwiseTokens otherwise ++ rest))))) =
        some (test, "\x7b" :: (Stmt.tokensAll body ++
          "\x7d" :: (Stmt.armTokens arms ++ (Stmt.otherwiseTokens otherwise ++ rest)))) :=
      testWithin_tokens htest.1 (by omega)
    simp [Stmt.armTokens, elseWithin, hfirst, hblock, hmore]

theorem readBack_of_wf {s : Stmt} (h : s.WF) : ReadBack s := by
  induction h with
  | @simple s hs =>
    intro d rest hd _
    obtain ⟨w, ts, hts, hw, hr⟩ := head_simple hs
    simp only [Stmt.tokens, List.length_append, List.length_singleton] at hd
    obtain ⟨d, rfl⟩ : ∃ k, d = k + 1 := ⟨d - 1, by omega⟩
    have hsimple : simpleWithin d (s.tokens ++ ";" :: rest) = some (s, ";" :: rest) :=
      simpleWithin_tokens hs (by omega) (ends_cons (by simp) _)
    have hfree : w ≠ "if" ∧ w ≠ "while" ∧ w ≠ "for" := by
      simp only [reserved, List.mem_cons, not_or] at hr
      exact ⟨hr.1, hr.2.2.1, hr.2.2.2.1⟩
    rw [hts, List.cons_append] at hsimple
    rw [Stmt.tokens, hts, List.append_assoc, List.singleton_append, List.cons_append, stmtWithin,
      if_neg hfree.1, if_neg hfree.2.1, if_neg hfree.2.2, hsimple]
    simp
  | @branch test body arms otherwise ht hb ha hab ho ihb iha iho =>
    intro d rest hd hr
    simp only [Stmt.tokens, List.length_cons, List.length_append] at hd
    obtain ⟨d, rfl⟩ : ∃ k, d = k + 1 := ⟨d - 1, by omega⟩
    have helse : elseWithin d (Stmt.armTokens arms ++ (Stmt.otherwiseTokens otherwise ++ rest)) =
        some (arms, otherwise, rest) := elseWithin_tokens ha hab iha ho iho (by omega) hr
    have hblock : blockWithin d ("\x7b" :: (Stmt.tokensAll body ++ "\x7d" ::
        (Stmt.armTokens arms ++ (Stmt.otherwiseTokens otherwise ++ rest)))) =
        some (body, Stmt.armTokens arms ++ (Stmt.otherwiseTokens otherwise ++ rest)) :=
      blockWithin_tokens hb ihb (by omega)
    have htest : testWithin d ("(" :: (test.tokens ++ ")" :: "\x7b" :: (Stmt.tokensAll body ++
        "\x7d" :: (Stmt.armTokens arms ++ (Stmt.otherwiseTokens otherwise ++ rest))))) =
        some (test, "\x7b" :: (Stmt.tokensAll body ++
          "\x7d" :: (Stmt.armTokens arms ++ (Stmt.otherwiseTokens otherwise ++ rest)))) :=
      testWithin_tokens ht (by omega)
    simp [Stmt.tokens, stmtWithin, htest, hblock, helse]
  | @whileLoop test body ht hb ihb =>
    intro d rest hd _
    simp only [Stmt.tokens, List.length_cons, List.length_append, List.length_nil] at hd
    obtain ⟨d, rfl⟩ : ∃ k, d = k + 1 := ⟨d - 1, by omega⟩
    have hblock : blockWithin d ("\x7b" :: (Stmt.tokensAll body ++ "\x7d" :: rest)) =
        some (body, rest) := blockWithin_tokens hb ihb (by omega)
    have htest : testWithin d ("(" :: (test.tokens ++ ")" :: "\x7b" :: (Stmt.tokensAll body ++
        "\x7d" :: rest))) = some (test, "\x7b" :: (Stmt.tokensAll body ++ "\x7d" :: rest)) :=
      testWithin_tokens ht (by omega)
    simp [Stmt.tokens, stmtWithin, htest, hblock]
  | @forLoop init update test body hi ht hu hb ihb =>
    intro d rest hd _
    simp only [Stmt.tokens, List.length_cons, List.length_append, List.length_nil] at hd
    obtain ⟨d, rfl⟩ : ∃ k, d = k + 1 := ⟨d - 1, by omega⟩
    have hblock : blockWithin d ("\x7b" :: (Stmt.tokensAll body ++ "\x7d" :: rest)) =
        some (body, rest) := blockWithin_tokens hb ihb (by omega)
    have hupdate (ts : List String) : simpleWithin d (update.tokens ++ ")" :: ts) =
        some (update, ")" :: ts) := simpleWithin_tokens hu (by omega) (ends_cons (by simp) _)
    have htest (ts : List String) : exprWithin d 0 (test.tokens ++ ";" :: ts) =
        some (test, ";" :: ts) := exprWithin_tokens ht (by omega) (ends_cons (by simp) _)
    have hinit (ts : List String) : simpleWithin d (init.tokens ++ ";" :: ts) =
        some (init, ";" :: ts) := simpleWithin_tokens hi (by omega) (ends_cons (by simp) _)
    simp [Stmt.tokens, stmtWithin, hinit, htest, hupdate, hblock]

theorem statements_tokensAll {ss : List Stmt} (h : ∀ s ∈ ss, s.WF) :
    statements (Stmt.tokensAll ss) = some ss := by
  have hss : stmtsWithin (4 * (Stmt.tokensAll ss).length + 4) (Stmt.tokensAll ss ++ []) =
      some (ss, []) :=
    stmtsWithin_tokens h (fun s hs => readBack_of_wf (h s hs)) (by omega) (by simp)
  rw [List.append_nil] at hss
  simp [statements, hss]

end Read

/-- The statements of the main function of a program. -/
def readProgram (text : String) : Option (List Stmt) := do
  let rest ← text.toList.dropPrefix? (unlines openingLines)
  let body ← rest.dropSuffix? ("\n".intercalate closingLines).toList
  Read.statements (lex body)

theorem tokensAll_append (ss ss' : List Stmt) :
    Stmt.tokensAll (ss ++ ss') = Stmt.tokensAll ss ++ Stmt.tokensAll ss' := by
  induction ss with
  | nil => rfl
  | cons s ss ih => simp only [List.cons_append, Stmt.tokensAll, ih, List.append_assoc]

theorem isWord_of_shown {s : Simple} (h : s.WF) : ∀ w ∈ s.shown, IsWord w := by
  unfold Simple.shown
  split
  · cases h with
    | call _ _ _ hes =>
      rw [List.forall_mem_cons] at hes
      cases hes.1 with
      | word hw => simpa using hw
  · simp

theorem forall_mem_shownAll {p : String → Prop} {ss : List Stmt}
    (h : ∀ s ∈ ss, ∀ w ∈ s.shown, p w) : ∀ w ∈ Stmt.shownAll ss, p w := by
  induction ss with
  | nil => simp [Stmt.shownAll]
  | cons s ss ih =>
    rw [List.forall_mem_cons] at h
    rw [Stmt.shownAll, List.forall_mem_append]
    exact ⟨h.1, ih h.2⟩

theorem forall_mem_shownArms {p : String → Prop} {arms : List (Expr × List Stmt)}
    (h : ∀ arm ∈ arms, ∀ s ∈ arm.2, ∀ w ∈ s.shown, p w) : ∀ w ∈ Stmt.shownArms arms, p w := by
  induction arms with
  | nil => simp [Stmt.shownArms]
  | cons arm arms ih =>
    rw [List.forall_mem_cons] at h
    rw [Stmt.shownArms, List.forall_mem_append]
    exact ⟨forall_mem_shownAll h.1, ih h.2⟩

theorem isWord_of_shown_stmt {s : Stmt} (h : s.WF) : ∀ w ∈ s.shown, IsWord w := by
  induction h with
  | simple hs => exact isWord_of_shown hs
  | @branch test body arms otherwise _ _ _ _ _ ihb iha iho =>
    simp only [Stmt.shown, List.forall_mem_append]
    refine ⟨forall_mem_shownAll ihb, forall_mem_shownArms iha, ?_⟩
    cases otherwise with
    | none => simp [Stmt.shownOtherwise]
    | some block => exact forall_mem_shownAll (iho block rfl)
  | whileLoop _ _ ihb => exact forall_mem_shownAll ihb
  | forLoop _ _ _ _ ihb => exact forall_mem_shownAll ihb

/-- The text of a program is read as its statements and those that show its cursors once more. -/
theorem readProgram_programText {body : List Stmt} (h : ∀ s ∈ body, s.WF) :
    readProgram (programText body) = some (body ++ showings (Stmt.shownAll body)) := by
  have hshown : ∀ w ∈ Stmt.shownAll body, IsWord w :=
    forall_mem_shownAll fun s hs => isWord_of_shown_stmt (h s hs)
  have hlex : lex (unlines (Stmt.linesAll 1 body ++ showingLines (Stmt.shownAll body))) =
      Stmt.tokensAll (body ++ showings (Stmt.shownAll body)) := by
    have hbody := lex_linesAll (fun s hs => lex_lines (h s hs)) 1
      (unlines (showingLines (Stmt.shownAll body)))
    have hshowing := lex_showingLines hshown []
    rw [List.append_nil] at hshowing
    rw [unlines_append, hbody, hshowing, tokensAll_append]
    simp [lex, lexFrom, finished]
  have hwf : ∀ s ∈ body ++ showings (Stmt.shownAll body), s.WF := by
    intro s hs
    rcases List.mem_append.mp hs with hs | hs
    · exact h s hs
    · obtain ⟨w, hw, rfl⟩ := List.mem_map.mp hs
      exact .simple (wf_showing (hshown w hw))
  have hprefix : (programText body).toList.dropPrefix? (unlines openingLines) =
      some (unlines (Stmt.linesAll 1 body ++ showingLines (Stmt.shownAll body)) ++
        ("\n".intercalate closingLines).toList) :=
    List.dropPrefix?_eq_some_iff.mpr ⟨_, toList_programText body, by simp⟩
  have hsuffix : (unlines (Stmt.linesAll 1 body ++ showingLines (Stmt.shownAll body)) ++
        ("\n".intercalate closingLines).toList).dropSuffix? ("\n".intercalate closingLines).toList =
      some (unlines (Stmt.linesAll 1 body ++ showingLines (Stmt.shownAll body))) :=
    List.dropSuffix?_eq_some_iff.mpr ⟨_, rfl, by simp⟩
  simp only [readProgram, hprefix, hsuffix, hlex, Option.bind_eq_bind, Option.bind_some]
  exact Read.statements_tokensAll hwf

end DrawPlus.Target
