import Mathlib.Data.List.TakeWhile
import Zipship.Proofs.Text.Encoding

/-!
# Lines in byte strings

The byte of a line end is part of a text only where the text has a line end
(`newline_mem_ofString`). So a line without one, followed by its end and by anything, is cut at the
first such byte into the line and the rest (`takeWhile_line`, `dropWhile_line`).
-/

namespace Zipship.Bytes

variable {s : String} {line rest : Bytes}

/-- The byte that ends a line. -/
def newline : UInt8 := 10

theorem newline_mem_ofString (h : newline ∈ ofString s) : '\n' ∈ s.toList :=
  (mem_ofString_iff (c := '\n') (by decide)).mp h

section Cutting

variable (hline : newline ∉ line)

include hline

theorem takeWhile_line : (line ++ newline :: rest).takeWhile (· ≠ newline) = line := by
  have hall : ∀ b ∈ line, decide (b ≠ newline) = true := by
    rintro b hb
    exact decide_eq_true fun he => hline (he ▸ hb)
  rw [List.takeWhile_append_of_pos hall, List.takeWhile_cons_of_neg (by simp), List.append_nil]

theorem dropWhile_line : (line ++ newline :: rest).dropWhile (· ≠ newline) = newline :: rest := by
  have hall : ∀ b ∈ line, decide (b ≠ newline) = true := by
    rintro b hb
    exact decide_eq_true fun he => hline (he ▸ hb)
  rw [List.dropWhile_append_of_pos hall, List.dropWhile_cons_of_neg (by simp)]

end Cutting

end Zipship.Bytes
