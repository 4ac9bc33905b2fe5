/-!
# LineScript.Text.Blank

Blank characters and trimming.  A character is blank when it has the
Unicode property `White_Space`: 25 code points, kept here as ten closed
intervals in increasing order.

* `trim_append`, `trim_eq_self` — exactly the blank characters at the ends are dropped.
-/

namespace LineScript.Text

/-! ## the table -/

/-- The code points with property `White_Space`, as closed intervals in
increasing order. -/
def blankRanges : List (Nat × Nat) :=
  [(0x9, 0xD), (0x20, 0x20), (0x85, 0x85), (0xA0, 0xA0), (0x1680, 0x1680),
    (0x2000, 0x200A), (0x2028, 0x2029), (0x202F, 0x202F), (0x205F, 0x205F),
    (0x3000, 0x3000)]

/-- A character is blank when one of the intervals holds its code point. -/
def isBlank (c : Char) : Bool :=
  blankRanges.any fun (lo, hi) => lo ≤ c.toNat && c.toNat ≤ hi

/-- The intervals hold 25 code points. -/
example : (blankRanges.map fun (lo, hi) => hi + 1 - lo).sum = 25 := by decide

/-- The intervals are apart and in increasing order. -/
example : (blankRanges.zip blankRanges.tail).all (fun (a, b) => a.2 < b.1) := by decide

/-- The space is blank. -/
@[simp] theorem isBlank_space : isBlank ' ' = true := by decide

/-! ## trimming -/

/-- Drop the longest run of elements with property `p` from the end. -/
def dropRightWhile (p : α → Bool) (xs : List α) : List α := (xs.reverse.dropWhile p).reverse

/-- Drop the blank characters at both ends. -/
def trim (cs : List Char) : List Char := dropRightWhile isBlank (cs.dropWhile isBlank)

/-- A list whose first element fails `p` keeps it. -/
theorem dropWhile_eq_self_of_head {p : α → Bool} {xs : List α}
    (h : ∀ x ∈ xs.head?, p x = false) : xs.dropWhile p = xs := by
  cases xs with
  | nil => rfl
  | cons x xs => simp [h x (by simp)]

/-- Dropping from the front leaves a first element that fails `p`. -/
theorem head?_dropWhile_eq_false {p : α → Bool} {xs : List α} :
    ∀ x ∈ (xs.dropWhile p).head?, p x = false := by
  induction xs with
  | nil => simp
  | cons y ys ih =>
      by_cases hy : p y = true
      · simpa [List.dropWhile_cons, hy] using ih
      · simp [hy]

/-- Dropping from the end keeps a prefix. -/
theorem dropRightWhile_isPrefix (p : α → Bool) (xs : List α) : dropRightWhile p xs <+: xs := by
  simpa [dropRightWhile] using (List.dropWhile_suffix (l := xs.reverse) p).reverse

/-- The first element of a nonempty prefix is the first element. -/
theorem head?_mem_of_isPrefix {xs ys : List α} (h : xs <+: ys) : ∀ x ∈ xs.head?, x ∈ ys.head? := by
  obtain ⟨zs, rfl⟩ := h
  cases xs <;> simp

/-- Elements with property `p` at the end are dropped. -/
theorem dropRightWhile_append {p : α → Bool} {xs ys : List α} (h : ∀ y ∈ ys, p y = true) :
    dropRightWhile p (xs ++ ys) = dropRightWhile p xs := by
  rw [dropRightWhile, List.reverse_append, List.dropWhile_append_of_pos (by simpa using h)]
  rfl

/-- A list whose last element fails `p` keeps it. -/
theorem dropRightWhile_eq_self_of_getLast {p : α → Bool} {xs : List α}
    (h : ∀ x ∈ xs.getLast?, p x = false) : dropRightWhile p xs = xs := by
  rw [dropRightWhile, dropWhile_eq_self_of_head (by simpa using h), List.reverse_reverse]

/-- Blank characters around others are dropped. -/
theorem trim_append {lead cs trail : List Char} (hlead : ∀ c ∈ lead, isBlank c = true)
    (htrail : ∀ c ∈ trail, isBlank c = true) : trim (lead ++ cs ++ trail) = trim cs := by
  have hdrop : (lead ++ cs ++ trail).dropWhile isBlank = (cs ++ trail).dropWhile isBlank := by
    rw [List.append_assoc, List.dropWhile_append_of_pos hlead]
  rw [trim, hdrop, List.dropWhile_append]
  split
  · next hblank =>
    have hrest : trail.dropWhile isBlank = [] := by
      rw [← List.append_nil trail, List.dropWhile_append_of_pos htrail]
      rfl
    rw [List.isEmpty_iff] at hblank
    rw [trim, hblank, hrest]
  · rw [dropRightWhile_append htrail, trim]

/-- What neither starts nor ends with a blank character is not trimmed. -/
theorem trim_eq_self {cs : List Char} (hfirst : ∀ c ∈ cs.head?, isBlank c = false)
    (hlast : ∀ c ∈ cs.getLast?, isBlank c = false) : trim cs = cs := by
  rw [trim, dropWhile_eq_self_of_head hfirst, dropRightWhile_eq_self_of_getLast hlast]

end LineScript.Text
