import DiceTally.Text.Blank

/-!
# Padding and trimming

Padding brings a text to a width that it does not exceed (`length_padLeft`).  Trimming takes characters from the end of
a text only, and none of what stands in front of a character that is not blank (`EndsInk.trimEnd_append`).
-/

namespace DiceTally

theorem toList_padLeft (width : Nat) (s : String) :
    (padLeft width s).toList = List.replicate (width - s.length) ' ' ++ s.toList := by
  rw [padLeft, String.toList_append, String.toList_ofList]

theorem length_padLeft {width : Nat} {s : String} (h : s.length ≤ width) : (padLeft width s).length = width := by
  rw [padLeft, String.length_append, String.length_ofList, List.length_replicate]
  omega

theorem mem_padLeft {width : Nat} {s : String} {c : Char} (h : c ∈ (padLeft width s).toList) :
    c = ' ' ∨ c ∈ s.toList := by
  rw [toList_padLeft] at h
  exact (List.mem_append.1 h).imp_left fun h => (List.mem_replicate.1 h).2

theorem isBlank_space : isBlank ' ' = true := by decide

/-- As many bytes as characters. -/
theorem utf8ByteSize_eq_length {s : String} (h : ∀ c ∈ s.toList, c.utf8Size = 1) : s.utf8ByteSize = s.length := by
  have hchars (cs : List Char) (h : ∀ c ∈ cs, c.utf8Size = 1) : (String.ofList cs).utf8ByteSize = cs.length := by
    induction cs with
    | nil => rfl
    | cons c cs ih =>
      obtain ⟨hc, hcs⟩ := List.forall_mem_cons.1 h
      have hcons : String.ofList (c :: cs) = String.singleton c ++ String.ofList cs := by
        rw [String.singleton_eq_ofList, ← String.ofList_append, List.singleton_append]
      rw [hcons, String.utf8ByteSize_append, String.utf8ByteSize_singleton, hc, ih hcs, List.length_cons, Nat.add_comm]
  rw [← String.length_toList, ← hchars s.toList h, String.ofList_toList]

/-! ### Trimming -/

theorem mem_trimEnd {s : String} {c : Char} (h : c ∈ (trimEnd s).toList) : c ∈ s.toList := by
  rw [trimEnd, String.toList_ofList, List.mem_reverse] at h
  exact List.mem_reverse.1 ((List.dropWhile_sublist isBlank).mem h)

/-- The last character is not blank. -/
def EndsInk (s : String) : Prop := ∃ c cs, s.toList.reverse = c :: cs ∧ isBlank c = false

theorem EndsInk.append {s : String} (h : EndsInk s) (front : String) : EndsInk (front ++ s) := by
  obtain ⟨c, cs, hs, hc⟩ := h
  exact ⟨c, cs ++ front.toList.reverse, by rw [String.toList_append, List.reverse_append, hs, List.cons_append], hc⟩

theorem endsInk_of_forall {s : String} (hne : s.toList ≠ []) (h : ∀ c ∈ s.toList, isBlank c = false) : EndsInk s := by
  obtain ⟨c, cs, hs⟩ := List.exists_cons_of_ne_nil (mt List.reverse_eq_nil_iff.1 hne)
  exact ⟨c, cs, hs, h c (List.mem_reverse.1 (hs ▸ List.mem_cons_self))⟩

/-- Trimming stops at a character that is not blank. -/
theorem EndsInk.trimEnd_append {s : String} (h : EndsInk s) (back : String) :
    trimEnd (s ++ back) = s ++ trimEnd back := by
  obtain ⟨c, cs, hs, hc⟩ := h
  have hdrop : (s ++ back).toList.reverse.dropWhile isBlank =
      back.toList.reverse.dropWhile isBlank ++ s.toList.reverse := by
    rw [String.toList_append, List.reverse_append, List.dropWhile_append, hs, List.dropWhile_cons_of_neg (by simp [hc])]
    split
    · rename_i hempty
      rw [List.isEmpty_iff.1 hempty, List.nil_append]
    · rfl
  rw [trimEnd, hdrop, List.reverse_append, List.reverse_reverse, String.ofList_append, String.ofList_toList, trimEnd]

theorem EndsInk.trimEnd_eq {s : String} (h : EndsInk s) : trimEnd s = s := by
  have hempty : trimEnd "" = "" := rfl
  have happend := h.trimEnd_append ""
  rwa [String.append_empty, hempty, String.append_empty] at happend

end DiceTally
