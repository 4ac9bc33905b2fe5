import LineScript.Block

/-!
# LineScript.Proofs.Block.Levels

What grouping lines says about them.  `Placed` lists what one line can do to the
open blocks; everything about groups follows from it, line by line.

* `groupLines_append` — lines that make whole groups are grouped on their own;
* `complete_of_groupLines` — a group is one line, or a block up to the line that
  closes it;
* `flatMap_lines_groupLines` — the groups hold the lines, in order;
* `groupLines_block` — lines that stay together up to the end of a block are one
  group, whatever follows.
-/

namespace LineScript

/-! ## one line -/

/-- What a line does when it is met inside `depth` open blocks: it has the given
level, and `after` blocks are open after it. -/
inductive Placed (line : SourceLine) : (depth level after : Nat) → Prop where
  | closes (depth : Nat) (h : line.keyword? = some .endBlock) : Placed line (depth + 1) depth depth
  | divides (depth : Nat) (h : line.keyword? = some .orElse) :
      Placed line (depth + 1) depth (depth + 1)
  | opens (depth : Nat) {k : Keyword} (h : line.keyword? = some k) (hk : k.opensBlock = true) :
      Placed line depth depth (depth + 1)
  | plain (depth : Nat) (h : ∀ k, line.keyword? = some k → k = .print) :
      Placed line depth depth depth

/-- A line is placed only in the ways listed. -/
theorem placed_of_place {depth level after : Nat} {line : SourceLine}
    (h : place depth line = .ok (level, after)) : Placed line depth level after := by
  unfold place at h
  split at h
  · contradiction
  · split at h
    · next hk =>
      split at h
      · contradiction
      · cases h; exact .closes _ hk
    · next hk =>
      split at h
      · contradiction
      · cases h; exact .divides _ hk
    · next k _ _ hk =>
      cases h
      split
      · next hopen => exact .opens depth hk hopen
      · next hopen =>
        refine .plain depth fun k' hk' => ?_
        obtain rfl : k = k' := Option.some.inj (hk.symm.trans hk')
        cases k <;> simp_all [Keyword.opensBlock]
    · next hk =>
      cases h
      exact .plain depth (by simp [hk])

/-- A line that can be placed is placed, unless it is refused outside blocks. -/
theorem place_of_placed {depth level after : Nat} {line : SourceLine}
    (h : Placed line depth level after)
    (hstart : depth = 0 → isUnknownConstruction line.tokens = false) :
    place depth line = .ok (level, after) := by
  unfold place
  rw [if_neg (by rintro ⟨h0, hunknown⟩; simp [hstart h0] at hunknown)]
  cases h with
  | closes d h => simp [h]
  | divides d h => simp [h]
  | @opens _ k h hk =>
      rw [h]
      cases k <;> simp_all [Keyword.opensBlock]
  | plain _ h =>
      cases hk : line.keyword? with
      | none => simp
      | some k =>
          obtain rfl := h k hk
          simp [Keyword.opensBlock]

/-- Inside a block every line can be placed. -/
theorem place_inside (depth : Nat) (line : SourceLine) :
    ∃ level after, place (depth + 1) line = .ok (level, after) := by
  unfold place
  rw [if_neg (by simp)]
  cases line.keyword? with
  | none => exact ⟨_, _, rfl⟩
  | some k => cases k <;> exact ⟨_, _, rfl⟩

/-- The nesting of a line is told by its keyword. -/
theorem nestingDelta_eq (line : SourceLine) :
    nestingDelta line.tokens =
      match line.keyword? with
      | some k => if k = .endBlock then -1 else if k.opensBlock then 1 else 0
      | none => 0 := by
  obtain ⟨number, tokens⟩ := line
  cases tokens with
  | nil => rfl
  | cons token tokens => cases token <;> rfl

/-- Placing a line follows its nesting. -/
theorem Placed.after_eq {line : SourceLine} {depth level after : Nat}
    (h : Placed line depth level after) : (after : Int) = depth + nestingDelta line.tokens := by
  have hdelta := nestingDelta_eq line
  cases h with
  | closes _ h =>
      have hvalue : nestingDelta line.tokens = -1 := by rw [hdelta, h]; rfl
      omega
  | divides _ h =>
      have hvalue : nestingDelta line.tokens = 0 := by rw [hdelta, h]; rfl
      omega
  | @opens _ k h hk =>
      have hvalue : nestingDelta line.tokens = 1 := by
        rw [hdelta, h]
        cases k <;> simp_all [Keyword.opensBlock]
      omega
  | plain _ h =>
      have hvalue : nestingDelta line.tokens = 0 := by
        rw [hdelta]
        cases hk : line.keyword? with
        | none => rfl
        | some k =>
            obtain rfl := h k hk
            rfl
      omega

/-! ## one step of grouping -/

/-- Outside blocks it does not matter which group came before. -/
theorem groupFrom_zero (opener : Nat) (lines : List SourceLine) :
    groupFrom 0 opener lines = (groupLines lines).map (([], ·)) := by
  have hopener : groupFrom 0 opener lines = groupFrom 0 0 lines := by
    cases lines <;> rfl
  rw [hopener, groupLines]
  cases h : groupFrom 0 0 lines with
  | error f => rfl
  | ok r =>
      obtain ⟨rest, groups⟩ := r
      obtain rfl := fst_groupFrom_zero h
      rfl

theorem groupFrom_of_groupLines {lines : List SourceLine} {groups : List Group}
    (h : groupLines lines = .ok groups) : groupFrom 0 0 lines = .ok ([], groups) := by
  rw [groupFrom_zero, h]
  rfl

theorem groupFrom_of_groupLines_error {lines : List SourceLine} {fault : Fault ParseCause}
    (h : groupLines lines = .error fault) : groupFrom 0 0 lines = .error fault := by
  rw [groupFrom_zero, h]
  rfl

/-- A line met inside a block belongs to that block. -/
theorem groupFrom_inside {depth level after opener : Nat} {line : SourceLine}
    (h : place (depth + 1) line = .ok (level, after)) (lines : List SourceLine) :
    groupFrom (depth + 1) opener (line :: lines) =
      (groupFrom after opener lines).map fun r => (⟨line, level⟩ :: r.1, r.2) := by
  simp only [groupFrom, h, bind, Except.bind, pure, Except.pure, if_neg (Nat.succ_ne_zero depth)]
  cases groupFrom after opener lines <;> rfl

/-- A line met outside blocks starts a group. -/
theorem groupLines_cons {level after : Nat} {line : SourceLine}
    (h : place 0 line = .ok (level, after)) (lines : List SourceLine) :
    groupLines (line :: lines) =
      (groupFrom after line.number lines).map fun r => ⟨⟨line, level⟩, r.1⟩ :: r.2 := by
  simp only [groupLines, groupFrom, h, bind, Except.bind, pure, Except.pure, if_true]
  cases groupFrom after line.number lines <;> rfl

/-- A line that cannot be placed outside blocks stops grouping. -/
theorem groupLines_cons_error {line : SourceLine} {f : Fault ParseCause}
    (h : place 0 line = .error f) (lines : List SourceLine) :
    groupLines (line :: lines) = .error f := by
  simp only [groupLines, groupFrom, h, bind, Except.bind]
  rfl

/-- What grouping a first line and further lines can give. -/
theorem groupFrom_cons_ok {depth opener : Nat} {line : SourceLine} {lines : List SourceLine}
    {rest : List NestedLine} {groups : List Group}
    (h : groupFrom depth opener (line :: lines) = .ok (rest, groups)) :
    ∃ level after rest' groups', Placed line depth level after ∧
      groupFrom after (if depth = 0 then line.number else opener) lines = .ok (rest', groups') ∧
      (depth = 0 → rest = [] ∧ groups = ⟨⟨line, level⟩, rest'⟩ :: groups') ∧
      (depth ≠ 0 → rest = ⟨line, level⟩ :: rest' ∧ groups = groups') := by
  simp only [groupFrom, bind, Except.bind, pure, Except.pure] at h
  split at h
  · contradiction
  · next r hr =>
    obtain ⟨level, after⟩ := r
    split at h
    · contradiction
    · next q hq =>
      obtain ⟨rest', groups'⟩ := q
      refine ⟨level, after, rest', groups', placed_of_place hr, hq, fun h0 => ?_, fun h0 => ?_⟩
      · rw [if_pos h0] at h; cases h; exact ⟨rfl, rfl⟩
      · rw [if_neg h0] at h; cases h; exact ⟨rfl, rfl⟩

/-! ## whole groups -/

theorem groupFrom_append {depth opener : Nat} {xs ys : List SourceLine} {rest : List NestedLine}
    {groups : List Group} (h : groupFrom depth opener xs = .ok (rest, groups)) :
    groupFrom depth opener (xs ++ ys) = (groupLines ys).map fun gs => (rest, groups ++ gs) := by
  induction xs generalizing depth opener rest groups with
  | nil =>
      unfold groupFrom at h
      split at h
      · next h0 => cases h; subst h0; exact groupFrom_zero opener ys
      · contradiction
  | cons line xs ih =>
      simp only [List.cons_append, groupFrom, bind, Except.bind, pure, Except.pure] at h ⊢
      split at h
      · contradiction
      · next r hr =>
        split at h
        · contradiction
        · next q hq =>
          rw [ih hq]
          split at h
          · cases h; cases groupLines ys <;> simp_all [Except.map]
          · cases h; cases groupLines ys <;> simp_all [Except.map]

/-- Lines that make whole groups are grouped on their own. -/
theorem groupLines_append {xs : List SourceLine} {groups : List Group}
    (h : groupLines xs = .ok groups) (ys : List SourceLine) :
    groupLines (xs ++ ys) = (groupLines ys).map (groups ++ ·) := by
  rw [groupLines, groupFrom_append (groupFrom_of_groupLines h)]
  cases groupLines ys <;> rfl

/-- The lines of a block after the one that opens it: its last line closes it,
and of the others only those that divide it are back on its level. -/
inductive Closed : List NestedLine → Prop where
  | close {line : NestedLine} (hlevel : line.level = 0) (h : line.keyword? = some .endBlock) :
      Closed [line]
  | cons {line : NestedLine} {lines : List NestedLine}
      (h : line.level = 0 → line.keyword? = some .orElse) (hs : Closed lines) :
      Closed (line :: lines)

/-- A closed block is cut at its first line of its own level: the lines before
it lie deeper, and it either closes the block or divides it. -/
theorem Closed.exists_append {lines : List NestedLine} (h : Closed lines) :
    ∃ inner line rest, lines = inner ++ line :: rest ∧ (∀ l ∈ inner, l.level ≠ 0) ∧
      line.level = 0 ∧ ((line.keyword? = some .endBlock ∧ rest = []) ∨
        (line.keyword? = some .orElse ∧ Closed rest)) := by
  induction h with
  | @close line hlevel hk => exact ⟨[], line, [], rfl, by simp, hlevel, .inl ⟨hk, rfl⟩⟩
  | @cons line lines hk hs ih =>
      by_cases hlevel : line.level = 0
      · exact ⟨[], line, lines, rfl, by simp, hlevel, .inr ⟨hk hlevel, hs⟩⟩
      · obtain ⟨inner, first, rest, rfl, hinner, hrest⟩ := ih
        refine ⟨line :: inner, first, rest, rfl, ?_, hrest⟩
        intro l hl
        rcases List.mem_cons.mp hl with rfl | hl
        · exact hlevel
        · exact hinner l hl

/-- A group is one line that opens no block, or a block up to the line that
closes it. -/
structure Group.Complete (g : Group) : Prop where
  closed : ∀ k, g.head.keyword? = some k → k.opensBlock = true → Closed g.rest
  single : (∀ k, g.head.keyword? = some k → k.opensBlock = false) → g.rest = []

/-- Inside a block, the lines of the group that remain close it. -/
theorem closed_of_groupFrom {depth opener : Nat} {lines : List SourceLine} {rest : List NestedLine}
    {groups : List Group} (h : groupFrom (depth + 1) opener lines = .ok (rest, groups)) :
    Closed rest := by
  induction lines generalizing depth opener rest groups with
  | nil => simp [groupFrom] at h
  | cons line lines ih =>
      obtain ⟨level, after, rest', groups', hplaced, hrest, -, hinside⟩ := groupFrom_cons_ok h
      obtain ⟨rfl, rfl⟩ := hinside (Nat.succ_ne_zero depth)
      cases hplaced with
      | closes _ hk =>
          cases depth with
          | zero =>
              obtain rfl := fst_groupFrom_zero hrest
              exact .close rfl hk
          | succ depth => exact .cons (by simp) (ih hrest)
      | divides _ hk => exact .cons (fun _ => hk) (ih hrest)
      | opens _ hk hopen => exact .cons (by simp) (ih hrest)
      | plain _ hk => exact .cons (by simp) (ih hrest)

theorem complete_of_groupFrom {depth opener : Nat} {lines : List SourceLine}
    {rest : List NestedLine} {groups : List Group}
    (h : groupFrom depth opener lines = .ok (rest, groups)) : ∀ g ∈ groups, g.Complete := by
  induction lines generalizing depth opener rest groups with
  | nil =>
      unfold groupFrom at h
      split at h
      · cases h; simp
      · contradiction
  | cons line lines ih =>
      obtain ⟨level, after, rest', groups', hplaced, hrest, hfirst, hinside⟩ := groupFrom_cons_ok h
      by_cases h0 : depth = 0
      · obtain ⟨-, rfl⟩ := hfirst h0
        subst h0
        have hhead : Group.Complete ⟨⟨line, level⟩, rest'⟩ := by
          cases hplaced with
          | opens _ hk hopen =>
              refine ⟨fun _ _ _ => closed_of_groupFrom hrest, fun hnone => ?_⟩
              simp [hnone _ hk] at hopen
          | plain _ hk =>
              refine ⟨fun k hk' hopen => ?_, fun _ => fst_groupFrom_zero hrest⟩
              obtain rfl := hk k hk'
              simp [Keyword.opensBlock] at hopen
        intro g hg
        rcases List.mem_cons.mp hg with rfl | hg
        · exact hhead
        · exact ih hrest g hg
      · obtain ⟨-, rfl⟩ := hinside h0
        exact ih hrest

/-- Every group is complete. -/
theorem complete_of_groupLines {lines : List SourceLine} {groups : List Group}
    (h : groupLines lines = .ok groups) : ∀ g ∈ groups, g.Complete :=
  complete_of_groupFrom (groupFrom_of_groupLines h)

theorem map_toSourceLine_groupFrom {depth opener : Nat} {lines : List SourceLine}
    {rest : List NestedLine} {groups : List Group}
    (h : groupFrom depth opener lines = .ok (rest, groups)) :
    (rest ++ groups.flatMap Group.lines).map (·.toSourceLine) = lines := by
  induction lines generalizing depth opener rest groups with
  | nil =>
      unfold groupFrom at h
      split at h
      · cases h; rfl
      · contradiction
  | cons line lines ih =>
      obtain ⟨level, after, rest', groups', -, hrest, hfirst, hinside⟩ := groupFrom_cons_ok h
      by_cases h0 : depth = 0
      · obtain ⟨rfl, rfl⟩ := hfirst h0
        simpa [Group.lines] using ih hrest
      · obtain ⟨rfl, rfl⟩ := hinside h0
        simpa using ih hrest

/-- The groups hold the lines, in order. -/
theorem flatMap_lines_groupLines {lines : List SourceLine} {groups : List Group}
    (h : groupLines lines = .ok groups) :
    (groups.flatMap Group.lines).map (·.toSourceLine) = lines := by
  simpa using map_toSourceLine_groupFrom (groupFrom_of_groupLines h)

/-! ## lines that stay together -/

/-- Grouping, inside `depth` open blocks, keeps the lines together with the
levels they have here, and leaves `after` blocks open. -/
def Adds (depth : Nat) (nested : List NestedLine) (after : Nat) : Prop :=
  ∀ opener more, groupFrom depth opener (nested.map (·.toSourceLine) ++ more) =
    (groupFrom after opener more).map fun r => (nested ++ r.1, r.2)

namespace Adds

theorem nil (depth : Nat) : Adds depth [] depth := by
  intro opener more
  show groupFrom depth opener more = _
  cases groupFrom depth opener more <;> rfl

theorem single {depth level after : Nat} {line : SourceLine}
    (h : Placed line (depth + 1) level after) : Adds (depth + 1) [⟨line, level⟩] after := by
  intro opener more
  exact groupFrom_inside (place_of_placed h (by simp)) more

theorem trans {a b c : Nat} {xs ys : List NestedLine} (h : Adds a xs b) (h' : Adds b ys c) :
    Adds a (xs ++ ys) c := by
  intro opener more
  rw [List.map_append, List.append_assoc, h, h']
  cases groupFrom c opener more <;> simp [Except.map]

theorem cons {depth level b c : Nat} {line : SourceLine} {lines : List NestedLine}
    (h : Placed line (depth + 1) level b) (h' : Adds b lines c) :
    Adds (depth + 1) (⟨line, level⟩ :: lines) c := (single h).trans h'

end Adds

theorem groupLines_single {line : SourceLine} (h : ∀ k, line.keyword? = some k → k = .print)
    (hstart : isUnknownConstruction line.tokens = false) (more : List SourceLine) :
    groupLines (line :: more) = (groupLines more).map (⟨⟨line, 0⟩, []⟩ :: ·) := by
  rw [groupLines_cons (place_of_placed (.plain 0 h) fun _ => hstart), groupFrom_zero]
  cases groupLines more <;> rfl

theorem groupLines_block {line : SourceLine} {k : Keyword} {nested : List NestedLine}
    (h : line.keyword? = some k) (hk : k.opensBlock = true)
    (hstart : isUnknownConstruction line.tokens = false) (hadds : Adds 1 nested 0)
    (more : List SourceLine) :
    groupLines (line :: (nested.map (·.toSourceLine) ++ more)) =
      (groupLines more).map (⟨⟨line, 0⟩, nested⟩ :: ·) := by
  rw [groupLines_cons (place_of_placed (.opens 0 h hk) fun _ => hstart), hadds, groupFrom_zero]
  cases groupLines more <;> simp [Except.map]

end LineScript
