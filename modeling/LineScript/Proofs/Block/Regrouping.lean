import LineScript.Proofs.Block.Levels
import LineScript.Proofs.Stateful

/-!
# LineScript.Proofs.Block.Regrouping

Grouping the lines of a block again.  The lines of a branch lie between two lines
that stand one level higher, so they open as many blocks as they close.  Grouped on
their own, every line finds one block fewer around it and the same blocks before it.

* `within_of_groupFrom` — the lines of a group are met inside its blocks;
* `Placed.lower` — what a line does with one block fewer around it;
* `Within.groupLines_error` — a branch is grouped again, unless a statement in it
  starts in an unknown way.
-/

namespace LineScript

/-! ## lines inside blocks -/

/-- The lines are met one after another, each of them inside at least one block;
`depth` blocks are open before them and `after` blocks after them. -/
inductive Within : (depth : Nat) → List NestedLine → (after : Nat) → Prop where
  | nil (depth : Nat) : Within depth [] depth
  | cons {line : NestedLine} {lines : List NestedLine} {depth between after : Nat}
      (h : Placed line.toSourceLine (depth + 1) line.level between)
      (hs : Within between lines after) : Within (depth + 1) (line :: lines) after

namespace Within

variable {depth after : Nat} {first second : List NestedLine}

theorem of_append (h : Within depth (first ++ second) after) :
    ∃ between, Within depth first between ∧ Within between second after := by
  induction first generalizing depth with
  | nil => exact ⟨depth, .nil depth, h⟩
  | cons line first ih =>
      cases h with
      | cons hline hs =>
          obtain ⟨between, hfirst, hsecond⟩ := ih hs
          exact ⟨between, .cons hline hfirst, hsecond⟩

/-- Before a line on the level of the outermost block, only that block is open. -/
theorem of_append_cons {line : NestedLine} (h : Within depth (first ++ line :: second) after)
    (hlevel : line.level = 0) :
    Within depth first 1 ∧
      (line.keyword? = some .orElse → Within 1 second after) := by
  obtain ⟨between, hfirst, hrest⟩ := h.of_append
  cases hrest with
  | cons hline hs =>
      rw [hlevel] at hline
      cases hline with
      | closes _ hk => exact ⟨hfirst, by simp [hk]⟩
      | divides _ hk => exact ⟨hfirst, fun _ => hs⟩

end Within

/-- Inside a block, the lines of the group that remain are met inside its blocks. -/
theorem within_of_groupFrom {depth opener : Nat} {lines : List SourceLine}
    {rest : List NestedLine} {groups : List Group}
    (h : groupFrom (depth + 1) opener lines = .ok (rest, groups)) : Within (depth + 1) rest 0 := by
  induction lines generalizing depth opener rest groups with
  | nil => simp [groupFrom] at h
  | cons line lines ih =>
      obtain ⟨level, after, rest', groups', hplaced, hrest, -, hinside⟩ := groupFrom_cons_ok h
      obtain ⟨rfl, -⟩ := hinside (Nat.succ_ne_zero depth)
      refine .cons hplaced ?_
      cases after with
      | zero =>
          obtain rfl := fst_groupFrom_zero hrest
          exact .nil 0
      | succ after => exact ih hrest

/-! ## one block fewer -/

/-- A line that does not come back to the level of the outermost block does the same
without that block. -/
theorem Placed.lower {line : SourceLine} {depth level after : Nat}
    (h : Placed line (depth + 1) level after) (hlevel : level ≠ 0) :
    ∃ above, after = above + 1 ∧ Placed line depth (level - 1) above := by
  cases h with
  | closes _ hk =>
      obtain ⟨d, rfl⟩ : ∃ d, depth = d + 1 := ⟨depth - 1, by omega⟩
      exact ⟨d, rfl, .closes d hk⟩
  | divides _ hk =>
      obtain ⟨d, rfl⟩ : ∃ d, depth = d + 1 := ⟨depth - 1, by omega⟩
      exact ⟨d + 1, rfl, .divides d hk⟩
  | opens _ hk hopen => exact ⟨depth + 1, rfl, .opens depth hk hopen⟩
  | plain _ hk => exact ⟨depth, rfl, .plain depth hk⟩

/-! ## when grouping fails -/

theorem groupFrom_cons_error {depth opener : Nat} {line : SourceLine} {lines : List SourceLine}
    {fault : Fault ParseCause} (h : groupFrom depth opener (line :: lines) = .error fault) :
    place depth line = .error fault ∨
      ∃ level after, place depth line = .ok (level, after) ∧
        groupFrom after (if depth = 0 then line.number else opener) lines = .error fault := by
  rw [groupFrom] at h
  rcases Except.bind_eq_error_iff.mp h with h | ⟨⟨level, after⟩, hplace, h⟩
  · exact .inl h
  · rcases Except.bind_eq_error_iff.mp h with h | ⟨_, _, h⟩
    · exact .inr ⟨level, after, hplace, h⟩
    · contradiction

/-- A line that the open blocks allow is refused only for the way it starts. -/
theorem Placed.cause_eq {depth level after : Nat} {line : SourceLine} {fault : Fault ParseCause}
    (h : Placed line depth level after) (hfault : place depth line = .error fault) :
    fault.cause = .unknownConstruction := by
  by_cases hstart : depth = 0 ∧ isUnknownConstruction line.tokens = true
  · unfold place at hfault
    rw [if_pos hstart] at hfault
    cases hfault
    rfl
  · rw [place_of_placed h fun h0 => by simpa [h0] using hstart] at hfault
    contradiction

/-- Lines that do not come back to the level of the outermost block are grouped
without it: if that fails, a statement starts in an unknown way, or blocks are left
open. -/
theorem Within.groupFrom_error {lines : List NestedLine} {depth after opener : Nat}
    {fault : Fault ParseCause} (h : Within (depth + 1) lines (after + 1))
    (hlevel : ∀ l ∈ lines, l.level ≠ 0)
    (hfault : groupFrom depth opener (lines.map (·.toSourceLine)) = .error fault) :
    fault.cause = .unknownConstruction ∨ after ≠ 0 := by
  induction lines generalizing depth opener with
  | nil =>
      cases h
      simp only [List.map_nil, groupFrom] at hfault
      split at hfault
      · contradiction
      · next hdepth => exact .inr hdepth
  | cons line lines ih =>
      obtain ⟨hline, hlines⟩ := List.forall_mem_cons.mp hlevel
      cases h with
      | cons hplaced hs =>
          obtain ⟨above, rfl, hlower⟩ := hplaced.lower hline
          simp only [List.map_cons] at hfault
          rcases groupFrom_cons_error hfault with hplace | ⟨level, between, hplace, hrest⟩
          · exact .inl (hlower.cause_eq hplace)
          · have hbetween := (placed_of_place hplace).after_eq
            have habove := hlower.after_eq
            obtain rfl : between = above := by omega
            exact ih hs hlines hrest

/-- **Grouping a branch again**: lines between two lines on the level of the block
around them leave no block open. -/
theorem Within.groupLines_error {lines : List NestedLine} {fault : Fault ParseCause}
    (h : Within 1 lines 1) (hlevel : ∀ l ∈ lines, l.level ≠ 0)
    (hfault : groupLines (lines.map (·.toSourceLine)) = .error fault) :
    fault.cause = .unknownConstruction := by
  rcases h.groupFrom_error hlevel (groupFrom_of_groupLines_error hfault) with hcause | hopen
  · exact hcause
  · contradiction

end LineScript
