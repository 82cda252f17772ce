import DrawPlus.Proofs.Numbers.Display
import DrawPlus.Proofs.Scanning.Items

/-!
# Reading what is written with blanks

A text can be put together from lexemes: words, dotted names, numbers, operators and delimiters,
each with a blank after it. A legible lexeme is an item where a blank follows (`item_of_legible`),
so the lexemes are read back one by one (`exists_outcome_spaced`), whatever follows them. A percent
sign is the one operator that is never read, and reading halts at it (`halt_percent`).
-/

namespace DrawPlus

/-- What a token says, wherever it stands. -/
def Token.said (t : Token) : Kind × Value := (t.kind, t.value)

namespace Lexeme

def said : Lexeme → List (Kind × Value)
  | .words first more => (Kind.ofWord first, .text first) ::
      more.flatMap fun w => [(.dot, "."), (Kind.ofWord w, .text w)]
  | .number v => [(.number, v)]
  | .sign k => [(k, .text (k.sign?.getD ""))]

theorem map_said_dottedBehind (before : List Char) (more : List String) :
    (dottedBehind before more).map Token.said =
      more.flatMap fun w => [(.dot, .text "."), (Kind.ofWord w, .text w)] := by
  induction more generalizing before with
  | nil => rfl
  | cons w more ih => simp [dottedBehind, Token.said, Token.behind, ih]

/-- The tokens of a lexeme say what it says, wherever it is written. -/
theorem map_said_behind (before : List Char) (l : Lexeme) :
    (l.behind before).map Token.said = l.said := by
  cases l with
  | words first more => simp [behind, said, Token.said, Token.behind, map_said_dottedBehind]
  | number v => rfl
  | sign k => rfl

/-- Lexemes that can be read, which are all but the percent sign and numbers of another kind. -/
inductive Legible : Lexeme → Prop
  | words {first : String} {more : List String} : IsWord first → (∀ w ∈ more, IsWord w) →
      Legible (.words first more)
  | number {n : ℕ} : n < 10 ^ maxIntegerDigits → Legible (.number (.int n))
  | operator {k : Kind} (c : Char) : isSignStart c = true → Kind.ofSign? c = some k →
      Legible (.sign k)
  | operatorEqual {k : Kind} (c : Char) : isSignStart c = true → Kind.ofSignEqual? c = some k →
      Legible (.sign k)
  | delimiter {k : Kind} (c : Char) : Kind.ofDelimiter? c = some k → Legible (.sign k)

/-- Lexemes with a blank after each. -/
def spaced (ls : List Lexeme) : List Char := ls.flatMap fun l => l.text ++ [' ']

@[simp] theorem spaced_nil : spaced [] = [] := rfl

@[simp] theorem spaced_cons (l : Lexeme) (ls : List Lexeme) :
    spaced (l :: ls) = l.text ++ ' ' :: spaced ls := by
  simp [spaced]

@[simp] theorem spaced_append (ls ms : List Lexeme) :
    spaced (ls ++ ms) = spaced ls ++ spaced ms := by
  simp [spaced]

end Lexeme

/-! ## Numbers as they are written -/

namespace Numeral

theorem leadingDigits_of_allDigits {text : List Char} (h : AllDigits text) :
    leadingDigits text = text.map fun c => c.toNat - 48 := by
  induction text with
  | nil => rfl
  | cons c text ih =>
    rw [AllDigits, List.forall_mem_cons] at h
    simp [leadingDigits, Text.decimalValue?, h.1, ih h.2]

/-- An integer below the limit is read from its digits. -/
theorem natural_toDigits {n : ℕ} (h : n < 10 ^ maxIntegerDigits) :
    natural (Nat.toDigits 10 n) = .ok n := by
  have hlength : (Nat.toDigits 10 n).length ≤ maxIntegerDigits :=
    (Nat.length_toDigits_le_iff (by norm_num) (by norm_num [maxIntegerDigits])).mpr h
  have hdigits := leadingDigits_of_allDigits (Double.allDigits_toDigits n)
  have hvalue : ofDigits (leadingDigits (Nat.toDigits 10 n)) = n := by
    rw [hdigits, ofDigits, List.foldl_map]
    exact Nat.ofDigitChars_ten_toDigits
  have hne : leadingDigits (Nat.toDigits 10 n) ≠ [] := by simp [hdigits]
  have hfits : (leadingDigits (Nat.toDigits 10 n)).length = (Nat.toDigits 10 n).length := by
    simp [hdigits]
  simp [natural, hfits, hlength.not_gt, hne, hvalue]

end Numeral

namespace Scan

open Reader

/-! ## Single lexemes -/

/-- The text ends here or goes on with a blank. -/
def Stops (after : List Char) : Prop := ∀ d, after.head? = some d → isGap d = true

theorem stops_blank (rest : List Char) : Stops (' ' :: rest) := by
  intro d hd
  cases hd
  rfl

theorem Stops.endsName {after : List Char} (h : Stops after) : EndsName after := by
  intro d hd
  obtain ⟨hword, -, hnot⟩ := gap_spec (h d hd)
  exact ⟨hword, by rintro rfl; simp at hnot⟩

theorem Stops.endsNumber {after : List Char} (h : Stops after) : EndsNumber after := by
  intro d hd
  obtain ⟨hword, hpoint⟩ := h.endsName d hd
  exact isNumberChar_of_word hword hpoint

/-- A legible lexeme is an item where a blank follows it. -/
theorem item_of_legible {l : Lexeme} (hl : l.Legible) {after : List Char} (ha : Stops after) :
    Item l.text after (some l) := by
  have hnot : ∀ d ∈ ['.', '=', '/', '*'], after.head? ≠ some d := fun d hd hhead =>
    (gap_spec (ha d hhead)).2.2 hd
  cases hl with
  | words hf hm => exact .words hf hm ha.endsName
  | @number n hn =>
    rw [Lexeme.text, Value.display_int]
    refine .integer Nat.toDigits_ne_nil (fun d hd => ?_) ha.endsNumber (Numeral.natural_toDigits hn)
    simp [Text.isDigit, Double.allDigits_toDigits n d hd]
  | operator c hc hk =>
    have hitem := Item.operator hc hk (hnot '=' (by simp)) fun _ d hd => hnot d (by simp_all)
    simpa [Lexeme.text, sign?_of_ofSign? hk] using hitem
  | operatorEqual c hc hk =>
    have hitem := @Item.operatorEqual c _ after hc hk
    simpa [Lexeme.text, sign?_of_ofSignEqual? hk] using hitem
  | delimiter c hk =>
    have hitem := @Item.delimiter c _ after hk
    simpa [Lexeme.text, sign?_of_ofDelimiter? hk] using hitem

/-! ## Lexemes one after the other -/

/-- Legible lexemes are read as what they say, whatever comes after them. -/
theorem exists_outcome_spaced {ls : List Lexeme} (h : ∀ l ∈ ls, l.Legible)
    (before rest : List Char) : ∃ ts, ts.map Token.said = ls.flatMap Lexeme.said ∧
      outcome before (Lexeme.spaced ls ++ rest) =
        (outcome (before ++ Lexeme.spaced ls) rest).map (ts ++ ·) := by
  induction ls generalizing before with
  | nil => exact ⟨[], rfl, by cases hrest : outcome before rest <;> simp [hrest, Except.map]⟩
  | cons l ls ih =>
    rw [List.forall_mem_cons] at h
    have hl := outcome_item (item_of_legible h.1 (stops_blank (Lexeme.spaced ls ++ rest))) before
    obtain ⟨us, hus, hls⟩ := ih h.2 (before ++ l.text ++ [' '])
    refine ⟨l.behind before ++ us, by simp [Lexeme.map_said_behind, hus], ?_⟩
    have htext : Lexeme.spaced (l :: ls) ++ rest =
        l.text ++ ' ' :: (Lexeme.spaced ls ++ rest) := by simp
    rw [htext, hl, outcome_blank rfl, hls, map_append_map]
    simp

theorem halt_percent (rest : List Char) : Halt ('%' :: rest) ['%'] (.unexpected '%') :=
  .stranger rest ⟨rfl, by simp [isWordStart_of_ascii], by simp [Text.isDigit_of_ascii], rfl, rfl⟩

theorem notMem_of_isWordChar {c : Char} (h : isWordChar c = true) : c ∉ ['\n', '%'] := by
  simp only [List.mem_cons, List.not_mem_nil, or_false]
  rintro (rfl | rfl) <;> simp [isWordChar_of_ascii] at h

theorem notMem_of_mem_fences {c : Char} (h : c ∈ fences) (hfeed : c ≠ '\n') : c ∉ ['\n', '%'] := by
  simp only [List.mem_cons, List.not_mem_nil, or_false, not_or]
  refine ⟨hfeed, ?_⟩
  rintro rfl
  simp [fences] at h

/-- No legible lexeme goes over a line end or has a percent sign in it. -/
theorem notMem_of_legible {l : Lexeme} (hl : l.Legible) : ∀ c ∈ l.text, c ∉ ['\n', '%'] := by
  intro c hc
  cases hl with
  | words hf hm =>
    simp only [Lexeme.text, Lexeme.dotted, List.mem_append, List.mem_flatMap, List.mem_cons] at hc
    obtain hc | ⟨w, hw, rfl | hc⟩ := hc
    · exact notMem_of_isWordChar (isWordChar_of_isWord hf c hc)
    · decide
    · exact notMem_of_isWordChar (isWordChar_of_isWord (hm w hw) c hc)
  | @number n hn =>
    exact notMem_of_isWordChar (isWordChar_of_isDigit (Value.allDigits_display_int n c hc))
  | operator d hd hk =>
    obtain rfl : c = d := by simpa [Lexeme.text, sign?_of_ofSign? hk] using hc
    obtain ⟨hfence, hfeed, -, -⟩ := signs_spec c (isSignStart_iff.mp hd)
    exact notMem_of_mem_fences hfence hfeed
  | operatorEqual d hd hk =>
    obtain rfl | rfl : c = d ∨ c = '=' := by
      simpa [Lexeme.text, sign?_of_ofSignEqual? hk] using hc
    · obtain ⟨hfence, hfeed, -, -⟩ := signs_spec c (isSignStart_iff.mp hd)
      exact notMem_of_mem_fences hfence hfeed
    · decide
  | delimiter d hk =>
    obtain rfl : c = d := by simpa [Lexeme.text, sign?_of_ofDelimiter? hk] using hc
    obtain ⟨hfence, hfeed⟩ := mem_fences_of_ofDelimiter? hk
    exact notMem_of_mem_fences hfence hfeed

theorem notMem_spaced {ls : List Lexeme} (h : ∀ l ∈ ls, l.Legible) :
    ∀ c ∈ Lexeme.spaced ls, c ∉ ['\n', '%'] := by
  intro c hc
  simp only [Lexeme.spaced, List.mem_flatMap, List.mem_append, List.mem_singleton] at hc
  obtain ⟨l, hl, hc | rfl⟩ := hc
  · exact notMem_of_legible (h l hl) c hc
  · decide

end Scan

open Lexeme Reader Text

theorem exists_ofText_spaced {ls : List Lexeme} (h : ∀ l ∈ ls, l.Legible) :
    ∃ ts last, Token.ofText (String.ofList (spaced ls)) = .ok (ts ++ [last]) ∧
      ts.map Token.said = ls.flatMap said := by
  obtain ⟨ts, hts, hread⟩ := Scan.exists_outcome_spaced h [] []
  rw [List.append_nil, List.nil_append, Scan.outcome_end] at hread
  exact ⟨ts, _, by rw [Scan.ofText_eq_outcome, String.toList_ofList, hread]; rfl, hts⟩

/-- A text is read up to its first percent sign. -/
theorem ofText_percent {ls : List Lexeme} (h : ∀ l ∈ ls, l.Legible) (rest : List Lexeme) :
    let source := String.ofList (spaced (ls ++ .sign .modulo :: rest))
    Token.ofText source = .error (.unexpected '%' 1 (source.toList.idxOf '%' + 1)) := by
  intro source
  have htext : source.toList = spaced ls ++ '%' :: ' ' :: spaced rest := by
    simp [source, text, Kind.sign?]
  have hplain := Scan.notMem_spaced h
  have hfeed : '\n' ∉ spaced ls := fun hc => hplain _ hc (by simp)
  have hpercent : '%' ∉ spaced ls := fun hc => hplain _ hc (by simp)
  obtain ⟨ts, -, hread⟩ := Scan.exists_outcome_spaced h [] ('%' :: ' ' :: spaced rest)
  rw [List.nil_append, Scan.outcome_halt (Scan.halt_percent _)] at hread
  have hline : endLine (spaced ls) = 1 := by simp [endLine, lines_of_notMem hfeed]
  have hcolumn : endColumn (spaced ls) = (spaced ls).length := by
    simp [endColumn, lastLine, lines_of_notMem hfeed]
  have hindex : source.toList.idxOf '%' = (spaced ls).length := by
    simp [htext, List.idxOf_append_of_notMem hpercent]
  have hfeed' : '\n' ∉ ['%'] := by decide
  rw [Scan.ofText_eq_outcome, hindex, htext, hread]
  simp [Fault.after, Except.map, endLine_append_of_notMem hfeed', endColumn_append_of_notMem hfeed',
    hline, hcolumn]

end DrawPlus
