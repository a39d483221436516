import PrologTerms.Proofs.Token.Tiling
import PrologTerms.Report.Excerpt

/-!
# Excerpts around a piece of text

The excerpt for a range that covers a piece of a text consists of whole lines with the piece among them.
There is an excerpt for every such range that is empty only at the end of the text.
-/

namespace PrologTerms

/-! ## Bytes -/

theorem utf8Length_reverse (cs : List Char) : utf8Length cs.reverse = utf8Length cs := by
  induction cs with
  | nil => rfl
  | cons c cs ih =>
    rw [List.reverse_cons, utf8Length_append, ih, utf8Length_cons, utf8Length_cons, utf8Length_nil]
    omega

/-- A text is divided behind the bytes of its front. -/
theorem splitBytes?_append (front back : List Char) :
    splitBytes? (utf8Length front) (front ++ back) = some ⟨front, back⟩ := by
  induction front with
  | nil => rw [List.nil_append, utf8Length_nil, splitBytes?]
  | cons c cs ih =>
    have hpos := c.utf8Size_pos
    obtain ⟨n, hn⟩ : ∃ n, utf8Length (c :: cs) = n + 1 :=
      Nat.exists_eq_add_one.2 (by rw [utf8Length_cons]; omega)
    rw [utf8Length_cons] at hn
    have hle : c.utf8Size ≤ n + 1 := by omega
    have hrest : n + 1 - c.utf8Size = utf8Length cs := by omega
    rw [utf8Length_cons, hn, List.cons_append, splitBytes?, if_pos hle, hrest, ih]
    rfl

/-! ## Lines -/

/-- The first line of a text, and what is behind it. -/
theorem exists_first_line (cs : List Char) : ∃ line behind, cs = line ++ behind ∧
    cs.takeWhile (· ≠ '\n') = line ∧ (behind = [] ∨ behind.head? = some '\n') := by
  refine ⟨_, cs.dropWhile (· ≠ '\n'), List.takeWhile_append_dropWhile.symm, rfl, ?_⟩
  cases h : cs.dropWhile (· ≠ '\n') with
  | nil => exact .inl rfl
  | cons c rest =>
    have hc := List.head?_dropWhile_not (· ≠ '\n') cs
    rw [h] at hc
    simpa using hc

/-- The last line of a text, and what is before it. -/
theorem exists_last_line (cs : List Char) : ∃ before line, cs = before ++ line ∧
    cs.reverse.takeWhile (· ≠ '\n') = line.reverse ∧
    (before = [] ∨ before.getLast? = some '\n') := by
  obtain ⟨line, behind, hcs, hline, hbehind⟩ := exists_first_line cs.reverse
  refine ⟨behind.reverse, line.reverse, ?_, ?_, ?_⟩
  · rw [← List.reverse_append, ← hcs, List.reverse_reverse]
  · rw [List.reverse_reverse]
    exact hline
  · rw [List.reverse_eq_nil_iff, List.getLast?_reverse]
    exact hbehind

theorem Position.line_advanceAll (p : Position) (cs : List Char) :
    (p.advanceAll cs).line = p.line + cs.count '\n' := by
  induction cs generalizing p with
  | nil => rfl
  | cons c cs ih =>
    rw [Position.advanceAll, List.foldl_cons, ← Position.advanceAll, ih, Position.advance]
    by_cases hc : c = '\n'
    · subst hc
      rw [if_pos rfl, List.count_cons_self]
      exact Nat.add_right_comm _ _ _
    · rw [if_neg hc, List.count_cons_of_ne hc]

/-! ## The excerpt for a range -/

namespace Excerpt

variable {s : Span} {text front piece back : String}

/-- What covering a piece means for the characters of the text. -/
theorem toList_of_covers (h : s.Covers text front piece back) :
    text.toList = front.toList ++ (piece.toList ++ back.toList) ∧
      s = ⟨utf8Length front.toList, utf8Length (front.toList ++ piece.toList)⟩ := by
  obtain ⟨htext, hstart, hstop⟩ := h
  rw [utf8ByteSize_eq] at hstart hstop
  rw [String.toList_append] at hstop
  refine ⟨?_, ?_⟩
  · rw [htext, String.toList_append, String.toList_append, List.append_assoc]
  · rw [← hstart, ← hstop]

/-- A range that is empty only at the end of the text concerns just its own bytes. -/
theorem extend_of_covers (h : s.Covers text front piece back) (hne : piece = "" → back = "") :
    extend s text.toList = some s := by
  obtain ⟨htext, rfl⟩ := toList_of_covers h
  have hstart : min (utf8Length front.toList) (utf8Length text.toList) = utf8Length front.toList := by
    rw [htext, utf8Length_append]
    omega
  have hstop : min (utf8Length (front.toList ++ piece.toList)) (utf8Length text.toList) =
      utf8Length (front.toList ++ piece.toList) := by
    rw [htext, utf8Length_append, utf8Length_append, utf8Length_append]
    omega
  simp only [extend, hstart, hstop]
  split
  · rfl
  · next hlt =>
    have hpiece : piece = "" := by
      rw [utf8Length_append] at hlt
      rw [← String.utf8ByteSize_eq_zero_iff, utf8ByteSize_eq]
      omega
    have hsplit := splitBytes?_append front.toList ([] ++ [])
    rw [htext, hpiece, hne hpiece, String.toList_empty, hsplit, List.append_nil]
    rfl

/-- The excerpt begins where a line begins, and ends where a line ends; the piece is in it, and it is
numbered by the lines before the piece. -/
theorem exists_of_covers (h : s.Covers text front piece back) (hne : piece = "" → back = "") :
    ∃ x before behind, of? text.toList s = some x ∧ text.toList = before ++ x.chars ++ behind ∧
      (before = [] ∨ before.getLast? = some '\n') ∧ (behind = [] ∨ behind.head? = some '\n') ∧
      utf8Length before ≤ s.start ∧ s.stop ≤ utf8Length (before ++ x.chars) ∧
      x.range = ⟨s.start - utf8Length before, s.stop - utf8Length before⟩ ∧
      x.firstLine = front.toList.count '\n' + 1 := by
  have hextend := extend_of_covers h hne
  obtain ⟨htext, rfl⟩ := toList_of_covers h
  obtain ⟨before, line, hfront, hline, hbefore⟩ := exists_last_line front.toList
  obtain ⟨line', behind, hback, hline', hbehind⟩ := exists_first_line back.toList
  have hstart := splitBytes?_append front.toList (piece.toList ++ back.toList)
  have hstop := splitBytes?_append (front.toList ++ piece.toList) back.toList
  rw [List.append_assoc, ← htext] at hstop
  rw [← htext] at hstart
  have hlines := splitBytes?_append before (line ++ piece.toList ++ line' ++ behind)
  have hcut := splitBytes?_append (line ++ piece.toList ++ line') behind
  have hwhole : before ++ (line ++ piece.toList ++ line' ++ behind) = text.toList := by
    rw [htext, hfront, hback]
    simp only [List.append_assoc]
  rw [hwhole] at hlines
  have hlineStart : utf8Length front.toList - utf8Length line.reverse = utf8Length before := by
    rw [utf8Length_reverse, hfront, utf8Length_append, Nat.add_sub_cancel]
  have hlineStop : utf8Length (front.toList ++ piece.toList) + utf8Length line' - utf8Length before =
      utf8Length (line ++ piece.toList ++ line') := by
    rw [hfront]
    simp only [utf8Length_append]
    omega
  have hle : ¬ utf8Length (front.toList ++ piece.toList) < utf8Length before := by
    rw [hfront]
    simp only [utf8Length_append]
    omega
  refine ⟨⟨front.toList.count '\n' + 1, line ++ piece.toList ++ line', _⟩, before, behind, ?_, ?_,
    hbefore, hbehind, ?_, ?_, rfl, rfl⟩
  · simp only [of?, hextend, hstart, hstop, hline, hline', hlineStart, hlineStop, hlines, hcut,
      Option.bind_eq_bind, Option.bind_some, if_neg hle, Option.pure_def]
  · rw [← hwhole]
    simp only [List.append_assoc]
  · show utf8Length before ≤ utf8Length front.toList
    rw [hfront, utf8Length_append]
    omega
  · rw [hfront]
    simp only [utf8Length_append]
    omega

end Excerpt

end PrologTerms
