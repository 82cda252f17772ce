import Mathlib
import DrawPlus.Token.Scan

/-!
# Readers keep their place

A reader can be asked for many things, in any order, and some of it fails in the middle. Whatever is
asked, all that happens to the reader is that it steps from one character to the next (`Onward`),
and it never steps off the end of the text. So what a single step keeps is kept by everything: the
reader is where its counts of characters, lines and columns say (`Coherent`).

Only two things could go further than the text: to step, and to take a sign, which steps before it
looks. At the end of the text a step leaves a coherent reader as it is, and that is also why a sign
of two characters always has a first one.
-/

namespace DrawPlus

namespace Reader

/-! ## Steps -/

/-- The second reader is one step further than the first, which stands on a character. -/
def Steps (r s : Reader) : Prop := r.current ≠ none ∧ s = r.advance

/-- The second reader is some steps further. -/
def Onward : Reader → Reader → Prop := Relation.ReflTransGen Steps

variable {r s t : Reader}

theorem Onward.trans (h : Onward r s) (h' : Onward s t) : Onward r t :=
  Relation.ReflTransGen.trans h h'

theorem Onward.refl (r : Reader) : Onward r r := Relation.ReflTransGen.refl

theorem onward_advance {c : Char} (hc : r.current = some c) : Onward r r.advance :=
  Relation.ReflTransGen.single ⟨by simp [hc], rfl⟩

theorem current_advance (r : Reader) : r.advance.current = r.peek := by
  unfold advance peek
  split
  · simp [*]
  · split <;> simp [*]

/-- A reader that goes on steps as often as it passes characters. -/
theorem Onward.exists_iterate (h : Onward r s) :
    ∃ n, n + s.remaining = r.remaining ∧ s = advance^[n] r := by
  induction h using Relation.ReflTransGen.head_induction_on with
  | refl => exact ⟨0, by simp⟩
  | head hstep _ ih =>
    obtain ⟨hne, rfl⟩ := hstep
    obtain ⟨c, hc⟩ := Option.ne_none_iff_exists'.mp hne
    obtain ⟨n, hn, hs⟩ := ih
    have hleft := remaining_advance hc
    exact ⟨n + 1, by omega, by rw [hs, Function.iterate_succ_apply]⟩

/-! ## Every part of reading goes onward -/

theorem onward_takeWhile (p : Char → Bool) (r : Reader) : Onward r (r.takeWhile p).2 := by
  fun_induction takeWhile p r with
  | case1 => exact .refl _
  | case2 r c h hp run ih => exact (onward_advance h).trans ih
  | case3 => exact .refl _

theorem onward_skipBlock (r : Reader) : Onward r r.skipBlock := by
  fun_induction skipBlock r with
  | case1 => exact .refl _
  | case2 r c h hclose =>
    simp only [Bool.and_eq_true, beq_iff_eq] at hclose
    have hslash : r.advance.current = some '/' := (current_advance r).trans hclose.2
    exact (onward_advance h).trans (onward_advance hslash)
  | case3 r c h hc ih => exact (onward_advance h).trans ih

theorem onward_skipComment (r : Reader) : Onward r r.skipComment := by
  unfold skipComment
  split_ifs with hline hblock
  · exact onward_takeWhile _ r
  · simp only [Bool.and_eq_true, beq_iff_eq] at hblock
    have hstar : r.advance.current = some '*' := (current_advance r).trans hblock.2
    exact ((onward_advance hblock.1).trans (onward_advance hstar)).trans (onward_skipBlock _)
  · exact .refl r

/-- Where there is a character, there is a sign. -/
theorem onward_takeSign {c : Char} (hc : r.current = some c) : Onward r r.takeSign.2 := by
  unfold takeSign
  simp only [hc]
  split_ifs with hequal
  · exact (onward_advance hc).trans (onward_advance (by simpa using hequal))
  · exact onward_advance hc

end Reader

namespace Scan

open Reader

/-- The reader after an action, be it successful or not. -/
def stateOf {α : Type} : EStateM.Result LexicalError Reader α → Reader
  | .ok _ r => r
  | .error _ r => r

@[simp] theorem stateOf_ok {α : Type} (a : α) (r : Reader) : stateOf (.ok a r) = r := rfl

@[simp] theorem stateOf_error {α : Type} (e : LexicalError) (r : Reader) :
    stateOf (.error e r : EStateM.Result LexicalError Reader α) = r := rfl

theorem onward_number (r : Reader) : Onward r (stateOf (number r)) := by
  have hwhole := onward_takeWhile Text.isDigit r
  unfold number
  simp only
  split_ifs with hpoint hsecond
  · have hpoint := onward_advance (beq_iff_eq.mp hpoint)
    exact (hwhole.trans hpoint).trans (onward_takeWhile _ _)
  · have hpoint := onward_advance (beq_iff_eq.mp hpoint)
    have hall := (hwhole.trans hpoint).trans (onward_takeWhile Text.isDigit _)
    split <;> exact hall
  · split <;> exact hwhole

theorem onward_dottedWords (r : Reader) : Onward r (stateOf (dottedWords r)) := by
  fun_induction dottedWords r with
  | case1 r hdot => exact onward_advance hdot
  | case2 r hdot dot next c hc hw run text rest after hrest ih =>
    rw [hrest] at ih
    exact ((onward_advance hdot).trans (onward_takeWhile _ _)).trans ih
  | case3 r hdot next c hc hw run e after hrest ih =>
    rw [hrest] at ih
    exact ((onward_advance hdot).trans (onward_takeWhile _ _)).trans ih
  | case4 r hdot => exact onward_advance hdot
  | case5 => exact .refl _

theorem onward_delimiter (r : Reader) : Onward r (stateOf (delimiter r)) := by
  unfold delimiter
  cases hc : r.current with
  | none => exact .refl r
  | some c =>
    dsimp only
    split
    · exact onward_advance hc
    · exact .refl r

theorem onward_item {r : Reader} {c : Char} (hc : r.current = some c) :
    Onward r (stateOf (item c r)) := by
  unfold item
  split_ifs with hgap hcomment hword hdigit hsign
  · exact onward_takeWhile _ r
  · exact onward_skipComment r
  · have hdotted := onward_dottedWords r.takeWord.2
    have hall := (onward_takeWhile isWordChar r).trans hdotted
    simp only [word]
    split <;> simp_all
  · have hnumber := onward_number r
    split <;> simp_all
  · have htake := onward_takeSign hc
    simp only
    split
    · exact htake
    · exact htake.trans (onward_delimiter _)
  · exact onward_delimiter r

theorem onward_tokens (r : Reader) : Onward r (stateOf (tokens r)) := by
  fun_induction tokens r with
  | case1 => exact .refl _
  | case2 r c hc e after hi =>
    have hitem := onward_item hc
    rwa [hi] at hitem
  | case3 r c hc ts after hi e last hmore ih =>
    have hitem := onward_item hc
    rw [hi] at hitem
    rw [hmore] at ih
    exact hitem.trans ih
  | case4 r c hc ts after hi more last hmore ih =>
    have hitem := onward_item hc
    rw [hi] at hitem
    rw [hmore] at ih
    exact hitem.trans ih

end Scan

namespace Reader

/-! ## Places -/

/-- The reader is where its counts say it is in a text: it has passed `position` characters, of
which the last one is the current one unless the text is at its end, and the line and the column are
those of the last of them. -/
structure Coherent (source : List Char) (r : Reader) : Prop where
  position_le : r.position ≤ source.length
  ahead : r.ahead = source.drop r.position
  current : r.current = none ∧ r.position = source.length ∨
    0 < r.position ∧ r.current = source[r.position - 1]?
  line : r.line = 1 + (source.take r.position).count '\n'
  column : r.column = ((source.take r.position).rtakeWhile (· ≠ '\n')).length

variable {source : List Char} {r s : Reader}

/-- A step in front of the text or on one of its characters. The reader before the first character
is not coherent, but its counts are right. -/
theorem coherent_advance (hahead : r.ahead = source.drop r.position)
    (hline : r.line = 1 + (source.take r.position).count '\n')
    (hcolumn : r.column = ((source.take r.position).rtakeWhile (· ≠ '\n')).length)
    (hposition : r.position ≤ source.length) : r.advance.Coherent source := by
  unfold advance
  cases hcons : r.ahead with
  | nil =>
    rw [hcons] at hahead
    have hend : r.position = source.length :=
      le_antisymm hposition (List.drop_eq_nil_iff.mp hahead.symm)
    exact ⟨hposition, hahead, .inl ⟨rfl, hend⟩, hline, hcolumn⟩
  | cons c rest =>
    rw [hcons] at hahead
    have hlt : r.position < source.length := by
      by_contra hge
      rw [List.drop_eq_nil_of_le (not_lt.mp hge)] at hahead
      cases hahead
    have hget : source[r.position]? = some c := by
      rw [← List.head?_drop, ← hahead]
      rfl
    have hrest : rest = source.drop (r.position + 1) := by
      rw [← List.tail_drop, ← hahead]
      rfl
    have htake : source.take (r.position + 1) = source.take r.position ++ [c] := by
      rw [List.take_add_one, hget]
      rfl
    dsimp only
    split_ifs with hfeed
    · refine ⟨hlt, hrest, .inr ⟨by simp, by simp [hget]⟩, ?_, ?_⟩
      · simp only [htake, List.count_append, hfeed, List.count_singleton_self]
        omega
      · simp [htake, hfeed]
    · refine ⟨hlt, hrest, .inr ⟨by simp, by simp [hget]⟩, ?_, ?_⟩
      · simp only [htake, List.count_append, List.count_singleton]
        simpa [hfeed] using hline
      · simp only [htake]
        rw [List.rtakeWhile_concat_pos _ _ _ (by simpa using hfeed), List.length_append, hcolumn]
        rfl

theorem coherent_ofText (source : List Char) : (ofText source).Coherent source :=
  coherent_advance rfl rfl rfl (Nat.zero_le _)

/-- One step keeps the place. -/
theorem Coherent.steps (h : r.Coherent source) (hs : Steps r s) : s.Coherent source := by
  obtain ⟨-, rfl⟩ := hs
  exact coherent_advance h.ahead h.line h.column h.position_le

/-- Any number of steps keeps it. -/
theorem Coherent.onward (h : r.Coherent source) (hs : Onward r s) : s.Coherent source := by
  induction hs with
  | refl => exact h
  | tail _ hstep ih => exact ih.steps hstep

theorem position_le_advance (r : Reader) : r.position ≤ r.advance.position := by
  unfold advance
  split
  · exact le_rfl
  · split <;> exact Nat.le_succ _

theorem Onward.position_le (h : Onward r s) : r.position ≤ s.position := by
  induction h with
  | refl => exact le_rfl
  | tail _ hstep ih =>
    obtain ⟨-, rfl⟩ := hstep
    exact ih.trans (position_le_advance _)

/-- At the end of the text there is no step. -/
theorem Onward.eq_of_current_none (h : Onward r s) (hr : r.current = none) : s = r := by
  induction h with
  | refl => rfl
  | tail _ hstep ih =>
    subst ih
    exact absurd hr hstep.1

/-- At the end of the text a coherent reader has nothing ahead. -/
theorem Coherent.advance_eq (h : r.Coherent source) (hr : r.current = none) : r.advance = r := by
  have hnil : r.ahead = [] := by
    obtain ⟨-, hend⟩ | ⟨hpos, hcurrent⟩ := h.current
    · rw [h.ahead, hend, List.drop_length]
    · have hlt : r.position - 1 < source.length := by
        have := h.position_le
        omega
      rw [hr, List.getElem?_eq_getElem hlt] at hcurrent
      cases hcurrent
  obtain ⟨current, ahead, position, line, column⟩ := r
  simp_all [advance]

/-! ## Calls -/

inductive Call where
  | advance
  | peek
  | skipGaps
  | skipComment
  | word
  | number
  | sign
  | tokens

inductive Reply where
  | nothing
  | character (c : Option Char)
  | word (text : List Char)
  | number (value : Value)
  | sign (kind : Option Kind) (text : List Char)
  | tokens (ts : List Token)

/-- The answer that an action gives, if it gives one. -/
def Reply.ofResult {α : Type} (reply : α → Reply) :
    EStateM.Result LexicalError Reader α → EStateM.Result LexicalError Reader Reply
  | .ok a r => .ok (reply a) r
  | .error e r => .error e r

theorem Reply.stateOf_ofResult {α : Type} (reply : α → Reply)
    (x : EStateM.Result LexicalError Reader α) :
    Scan.stateOf (ofResult reply x) = Scan.stateOf x := by
  cases x <;> rfl

namespace Call

def perform : Call → Scan Reply
  | .advance => fun r => .ok (.character r.advance.current) r.advance
  | .peek => fun r => .ok (.character r.peek) r
  | .skipGaps => fun r => .ok .nothing r.skipGaps
  | .skipComment => fun r => .ok .nothing r.skipComment
  | .word => fun r => .ok (.word r.takeWord.1) r.takeWord.2
  | .number => fun r => Reply.ofResult .number (Scan.number r)
  | .sign => fun r => .ok (.sign r.takeSign.1.1 r.takeSign.1.2) r.takeSign.2
  | .tokens => fun r => Reply.ofResult .tokens (Scan.tokens r)

/-- Do what is asked, with no answer where there can be none: a sign of two characters is made of
the current character, which there may not be, and an equals sign. -/
def perform? (call : Call) (r : Reader) : Option (EStateM.Result LexicalError Reader Reply) :=
  match call, r.current, r.advance.current with
  | .sign, none, some '=' => none
  | call, _, _ => some (call.perform r)

/-- The reader after a call, be it successful or not. -/
def after (call : Call) (r : Reader) : Reader := Scan.stateOf (call.perform r)

end Call

def run (r : Reader) (calls : List Call) : Reader := calls.foldl (fun r call => call.after r) r

/-- A call takes a coherent reader some steps further. -/
theorem Coherent.onward_after (h : r.Coherent source) (call : Call) : Onward r (call.after r) := by
  cases call with
  | advance =>
    change Onward r r.advance
    cases hc : r.current with
    | none => rw [h.advance_eq hc]; exact .refl r
    | some c => exact onward_advance hc
  | peek => exact .refl r
  | skipGaps => exact onward_takeWhile _ r
  | skipComment => exact onward_skipComment r
  | word => exact onward_takeWhile _ r
  | number =>
    rw [Call.after, Call.perform, Reply.stateOf_ofResult]
    exact Scan.onward_number r
  | sign =>
    change Onward r r.takeSign.2
    cases hc : r.current with
    | none =>
      rw [takeSign]
      simp only [hc, h.advance_eq hc]
      exact .refl r
    | some c => exact onward_takeSign hc
  | tokens =>
    rw [Call.after, Call.perform, Reply.stateOf_ofResult]
    exact Scan.onward_tokens r

theorem Coherent.perform?_eq (h : r.Coherent source) (call : Call) :
    call.perform? r = some (call.perform r) := by
  unfold Call.perform?
  split
  case h_1 hc hequal =>
    rw [h.advance_eq hc, hc] at hequal
    cases hequal
  case h_2 => rfl

theorem Coherent.onward_run (h : r.Coherent source) (calls : List Call) :
    Onward r (r.run calls) := by
  induction calls generalizing r with
  | nil => exact .refl r
  | cons call calls ih =>
    have hcall := h.onward_after call
    exact hcall.trans (ih (h.onward hcall))

/-- A reader keeps its place, whatever it is asked for and whatever of it fails. After any calls it
is coherent. From there on, its position never goes down, and at the end of the text nothing moves
it any more. Each further call is answered or fails with a lexical error, and to do so it takes no
more steps than there are characters left. -/
theorem calls_keep_place (source : String) (calls : List Call) :
    let r := (ofText source.toList).run calls
    r.Coherent source.toList ∧
      (∀ more, r.position ≤ (r.run more).position ∧ (r.current = none → r.run more = r)) ∧
      ∀ call : Call, call.perform? r = some (call.perform r) ∧
        ∃ n ≤ r.remaining, call.after r = advance^[n] r := by
  intro r
  have hstart := coherent_ofText source.toList
  have hr : r.Coherent source.toList := hstart.onward (hstart.onward_run calls)
  refine ⟨hr, fun more => ?_, fun call => ⟨hr.perform?_eq call, ?_⟩⟩
  · have hmore := hr.onward_run more
    exact ⟨hmore.position_le, hmore.eq_of_current_none⟩
  · obtain ⟨n, hn, hafter⟩ := (hr.onward_after call).exists_iterate
    exact ⟨n, by omega, hafter⟩

/-- Reading a number fails at its second point. The calls after it pass the line feed and the end of
the text, and no further call leads back. -/
theorem calls_keep_place_failing :
    let r := (ofText "1.2.3\n".toList).run [.number, .advance, .number, .skipGaps, .advance]
    r = ⟨none, [], 6, 2, 0⟩ ∧ r.Coherent "1.2.3\n".toList ∧ ∀ more, r.run more = r := by
  intro r
  have hend : r = ⟨none, [], 6, 2, 0⟩ := by decide +kernel
  obtain ⟨hr, hmore, -⟩ := calls_keep_place "1.2.3\n"
    [.number, .advance, .number, .skipGaps, .advance]
  exact ⟨hend, hr, fun more => (hmore more).2 (congrArg current hend)⟩

end Reader

end DrawPlus
