/-!
# Cutting what was appended

A file that grew by appended pieces and is cut off at a byte ends with a part of one piece, or with
the last piece. The pieces in front of the cut are there as a whole.

Main statement: `List.take_flatMap_cases`.
-/

namespace List

variable {α β : Type}

theorem exists_cut_of_lt_flatMap (f : α → List β) (items : List α) (stop : Nat)
    (h : stop < (items.flatMap f).length) :
    ∃ front item rest, items = front ++ item :: rest ∧ (front.flatMap f).length ≤ stop ∧
      stop < (front.flatMap f).length + (f item).length := by
  induction items generalizing stop with
  | nil => simp at h
  | cons item rest ih =>
    rcases Nat.lt_or_ge stop (f item).length with hshort | hlong
    · exact ⟨[], item, rest, rfl, by simp, by simpa using hshort⟩
    · rw [flatMap_cons, length_append] at h
      obtain ⟨front, other, tail, rfl, hfront, hother⟩ :=
        ih (stop - (f item).length) (by omega)
      refine ⟨item :: front, other, tail, rfl, ?_, ?_⟩ <;>
        rw [flatMap_cons, length_append] <;> omega

/-- A cut comes behind the last piece, or in one piece; then the pieces in front of that one are
all those that lie in front of the cut. -/
theorem take_flatMap_cases (f : α → List β) (items : List α) (stop : Nat) :
    (items.flatMap f).length ≤ stop ∨
      ∃ front item rest, items = front ++ item :: rest ∧
        (items.flatMap f).take stop =
          front.flatMap f ++ (f item).take (stop - (front.flatMap f).length) ∧
        stop - (front.flatMap f).length < (f item).length ∧
        ∀ other tail, items = other ++ tail → (other.flatMap f).length ≤ stop →
          other.length ≤ front.length := by
  rcases Nat.lt_or_ge stop (items.flatMap f).length with hshort | hlong
  · obtain ⟨front, item, rest, rfl, hfront, hitem⟩ := exists_cut_of_lt_flatMap f items stop hshort
    refine .inr ⟨front, item, rest, rfl, ?_, by omega, fun other tail hsplit hother => ?_⟩
    · rw [flatMap_append, flatMap_cons, take_append, take_of_length_le hfront,
        take_append_of_le_length (by omega)]
    · -- a longer list of whole pieces would hold the one that is cut
      refine Nat.le_of_not_lt fun hlonger => ?_
      have hcut : front ++ [item] <+: front ++ item :: rest := ⟨rest, by simp⟩
      have hother' : other <+: front ++ item :: rest := ⟨tail, hsplit.symm⟩
      have hlength : (front ++ [item]).length ≤ other.length := by
        simp only [length_append, length_singleton]
        omega
      obtain ⟨more, rfl⟩ := prefix_of_prefix_length_le hcut hother' hlength
      simp only [flatMap_append, flatMap_cons, flatMap_nil, length_append, length_nil] at hother
      omega
  · exact .inl hlong

end List
