import LineScript.Proofs.Block.Regrouping
import Mathlib

/-!
# LineScript.Proofs.Block.Nesting

Grouping told by sums.  Each line opens a block, closes one or does neither, and the
number of blocks open at a line is the sum over the lines before it.  These sums say
everything about grouping, without a look at how it goes about it: whether lines can be
grouped, where the groups end, on which level a line is, and which line is at fault.

* `wellPlaced_of_groupFrom` — lines that are grouped are well placed and close what they
  open;
* `boundary_of_groupFrom` — a group ends where the sum is back at zero;
* `fault_of_groupFrom` — the line at fault;
* `groupLines_exact` — the three together, for the lines of a program.
-/

namespace LineScript

/-! ## sums -/

/-- The number of blocks that lines open and leave open; it is negative if they close
more than they open. -/
def nesting (lines : List SourceLine) : Int := (lines.map fun l => nestingDelta l.tokens).sum

@[simp] theorem nesting_nil : nesting [] = 0 := rfl

@[simp] theorem nesting_cons (line : SourceLine) (lines : List SourceLine) :
    nesting (line :: lines) = nestingDelta line.tokens + nesting lines := by
  simp [nesting]

@[simp] theorem nesting_append (xs ys : List SourceLine) :
    nesting (xs ++ ys) = nesting xs + nesting ys := by
  simp [nesting]

/-! ## where a line may stand -/

/-- Why a line may not stand where `depth` blocks are open: it closes or divides a block
and none is open, or it starts a statement with a word and then another word or a
keyword. -/
inductive Misplaced (depth : Int) (line : SourceLine) : ParseCause → Prop where
  | keyword {k : Keyword} (h : line.keyword? = some k) (hk : k = .endBlock ∨ k = .orElse)
      (hdepth : depth < 1) : Misplaced depth line (.unexpectedKeyword k)
  | words {first second : String} {rest : List Token}
      (h : line.tokens = .word first :: .word second :: rest) (hdepth : depth = 0) :
      Misplaced depth line .unknownConstruction
  | wordKeyword {first : String} {k : Keyword} {rest : List Token}
      (h : line.tokens = .word first :: .keyword k :: rest) (hdepth : depth = 0) :
      Misplaced depth line .unknownConstruction

/-- The level of a line at which `depth` blocks are open: a line that closes or divides a
block is on the level of the line that opened it. -/
def levelAt (depth : Int) (line : SourceLine) : Int :=
  if line.keyword? = some .endBlock ∨ line.keyword? = some .orElse then depth - 1 else depth

theorem Misplaced.of_isUnknownConstruction {line : SourceLine}
    (h : isUnknownConstruction line.tokens = true) : Misplaced 0 line .unknownConstruction := by
  unfold isUnknownConstruction at h
  split at h
  · next htokens => exact .words htokens rfl
  · next htokens => exact .wordKeyword htokens rfl
  · contradiction

/-- A line is refused only where it may not stand. -/
theorem misplaced_of_place {depth : Nat} {line : SourceLine} {fault : Fault ParseCause}
    (h : place depth line = .error fault) :
    Misplaced depth line fault.cause ∧ fault.line = line.number := by
  unfold place at h
  by_cases hunknown : depth = 0 ∧ isUnknownConstruction line.tokens = true
  · rw [if_pos hunknown] at h
    cases h
    rw [hunknown.1]
    exact ⟨.of_isUnknownConstruction hunknown.2, rfl⟩
  · rw [if_neg hunknown] at h
    split at h
    · next hk =>
      cases depth with
      | zero => cases h; exact ⟨.keyword hk (.inl rfl) (by simp), rfl⟩
      | succ depth => contradiction
    · next hk =>
      cases depth with
      | zero => cases h; exact ⟨.keyword hk (.inr rfl) (by simp), rfl⟩
      | succ depth => contradiction
    · contradiction
    · contradiction

/-- A line that is not refused may stand where it is. -/
theorem not_misplaced_of_place {depth level after : Nat} {line : SourceLine}
    (h : place depth line = .ok (level, after)) (cause : ParseCause) :
    ¬Misplaced depth line cause := by
  intro hmisplaced
  have hplaced := placed_of_place h
  unfold place at h
  cases hmisplaced with
  | keyword hk hclosing hdepth =>
      cases hplaced with
      | closes d _ => omega
      | divides d _ => omega
      | opens _ hk' hopen =>
          obtain rfl := Option.some.inj (hk.symm.trans hk')
          rcases hclosing with rfl | rfl <;> contradiction
      | plain _ hplain =>
          obtain rfl := hplain _ hk
          simp at hclosing
  | words htokens hdepth =>
      have hzero : depth = 0 := by omega
      simp [hzero, htokens, isUnknownConstruction] at h
  | wordKeyword htokens hdepth =>
      have hzero : depth = 0 := by omega
      simp [hzero, htokens, isUnknownConstruction] at h

/-- A line is placed on its level. -/
theorem Placed.level_eq {line : SourceLine} {depth level after : Nat}
    (h : Placed line depth level after) : (level : Int) = levelAt depth line := by
  unfold levelAt
  cases h with
  | closes _ hk => simp [hk]
  | divides _ hk => simp [hk]
  | @opens _ k hk hopen =>
      have hne : k ≠ .endBlock ∧ k ≠ .orElse := by
        constructor <;> (rintro rfl; contradiction)
      simp [hk, hne]
  | plain _ hplain =>
      have hne : ¬(line.keyword? = some .endBlock ∨ line.keyword? = some .orElse) := by
        rintro (hk | hk) <;> cases hplain _ hk
      rw [if_neg hne]

/-! ## all lines of a list -/

/-- What holds of each element and the elements before it, split off at the first. -/
theorem forall_append_cons_iff {α : Type} {P : List α → α → Prop} {x : α} {xs : List α} :
    (∀ before y after, x :: xs = before ++ y :: after → P before y) ↔
      P [] x ∧ ∀ before y after, xs = before ++ y :: after → P (x :: before) y := by
  constructor
  · intro h
    exact ⟨h [] x xs rfl, fun before y after heq => h (x :: before) y after (by simp [heq])⟩
  · intro h before y after heq
    rcases List.cons_eq_append_iff.mp heq with ⟨rfl, hcons⟩ | ⟨before', rfl, hrest⟩
    · cases hcons
      exact h.1
    · exact h.2 before' y after hrest

/-- Every line may stand where it is, if `depth` blocks are open before the first. -/
def WellPlaced (depth : Int) (lines : List SourceLine) : Prop :=
  ∀ before line after, lines = before ++ line :: after →
    ∀ cause, ¬Misplaced (depth + nesting before) line cause

theorem wellPlaced_nil (depth : Int) : WellPlaced depth [] := by
  intro before line after h
  simp at h

theorem wellPlaced_cons_iff {depth : Int} {line : SourceLine} {lines : List SourceLine} :
    WellPlaced depth (line :: lines) ↔ (∀ cause, ¬Misplaced depth line cause) ∧
      WellPlaced (depth + nestingDelta line.tokens) lines := by
  unfold WellPlaced
  rw [forall_append_cons_iff]
  simp [Int.add_assoc]

/-- Every line is on its level, if `depth` blocks are open before the first. -/
def Levelled (depth : Int) (nested : List NestedLine) : Prop :=
  ∀ before line after, nested = before ++ line :: after →
    (line.level : Int) = levelAt (depth + nesting (before.map (·.toSourceLine))) line.toSourceLine

theorem levelled_nil (depth : Int) : Levelled depth [] := by
  intro before line after h
  simp at h

theorem levelled_cons_iff {depth : Int} {line : NestedLine} {nested : List NestedLine} :
    Levelled depth (line :: nested) ↔ (line.level : Int) = levelAt depth line.toSourceLine ∧
      Levelled (depth + nestingDelta line.tokens) nested := by
  unfold Levelled
  rw [forall_append_cons_iff]
  simp [Int.add_assoc]

/-- At no point are all blocks closed, if `depth` blocks are open before the first line. -/
def StaysOpen (depth : Int) (lines : List SourceLine) : Prop :=
  ∀ first, first <+: lines → depth + nesting first ≠ 0

theorem staysOpen_cons_iff {depth : Int} {line : SourceLine} {lines : List SourceLine} :
    StaysOpen depth (line :: lines) ↔
      depth ≠ 0 ∧ StaysOpen (depth + nestingDelta line.tokens) lines := by
  unfold StaysOpen
  constructor
  · intro h
    refine ⟨by simpa using h [] List.nil_prefix, fun first hfirst => ?_⟩
    have hline := h (line :: first) (List.cons_prefix_cons.mpr ⟨rfl, hfirst⟩)
    rwa [nesting_cons, ← Int.add_assoc] at hline
  · intro h first hfirst
    rcases List.prefix_cons_iff.mp hfirst with rfl | ⟨more, rfl, hmore⟩
    · simpa using h.1
    · have hrest := h.2 more hmore
      rwa [nesting_cons, ← Int.add_assoc]

/-! ## lines that are grouped -/

/-- Lines that are grouped are well placed and close what is open. -/
theorem wellPlaced_of_groupFrom {depth opener : Nat} {lines : List SourceLine}
    {r : List NestedLine × List Group} (h : groupFrom depth opener lines = .ok r) :
    WellPlaced depth lines ∧ depth + nesting lines = 0 := by
  induction lines generalizing depth opener r with
  | nil =>
      have hdepth : depth = 0 := by
        by_contra hne
        simp [groupFrom, hne] at h
      simp [hdepth, wellPlaced_nil]
  | cons line lines ih =>
      rw [groupFrom] at h
      obtain ⟨⟨level, after⟩, hplace, h⟩ := Except.bind_eq_ok_iff.mp h
      obtain ⟨_, hrest, -⟩ := Except.bind_eq_ok_iff.mp h
      have hafter := (placed_of_place hplace).after_eq
      obtain ⟨hplaced, hsum⟩ := ih hrest
      rw [wellPlaced_cons_iff, nesting_cons, ← Int.add_assoc, ← hafter]
      exact ⟨⟨not_misplaced_of_place hplace, hplaced⟩, hsum⟩

/-- Lines are grouped on their levels. -/
theorem levelled_of_groupFrom {depth opener : Nat} {lines : List SourceLine}
    {rest : List NestedLine} {groups : List Group}
    (h : groupFrom depth opener lines = .ok (rest, groups)) :
    Levelled depth (rest ++ groups.flatMap Group.lines) := by
  induction lines generalizing depth opener rest groups with
  | nil =>
      unfold groupFrom at h
      split at h
      · cases h; exact levelled_nil _
      · contradiction
  | cons line lines ih =>
      obtain ⟨level, after, rest', groups', hplaced, hrest, hfirst, hinside⟩ := groupFrom_cons_ok h
      have hlines : rest ++ groups.flatMap Group.lines =
          ⟨line, level⟩ :: (rest' ++ groups'.flatMap Group.lines) := by
        by_cases h0 : depth = 0
        · simp [hfirst h0, Group.lines]
        · simp [hinside h0]
      rw [hlines, levelled_cons_iff, ← hplaced.after_eq]
      exact ⟨hplaced.level_eq, ih hrest⟩

/-- A group ends where no block is open: the lines up to such a point are those of the
group that is open before them and of some groups after it. -/
theorem boundary_of_groupFrom {depth opener : Nat} {lines before : List SourceLine}
    {rest : List NestedLine} {groups : List Group}
    (h : groupFrom depth opener lines = .ok (rest, groups)) (hbefore : before <+: lines) :
    depth + nesting before = 0 ↔
      ∃ first, first <+: groups ∧
        (rest ++ first.flatMap Group.lines).map (·.toSourceLine) = before := by
  induction lines generalizing depth opener rest groups before with
  | nil =>
      obtain rfl := List.prefix_nil.mp hbefore
      unfold groupFrom at h
      split at h
      · next h0 => cases h; simp [h0]
      · contradiction
  | cons line lines ih =>
      obtain ⟨level, after, rest', groups', hplaced, hrest, hfirst, hinside⟩ := groupFrom_cons_ok h
      rcases List.prefix_cons_iff.mp hbefore with rfl | ⟨more, rfl, hmore⟩
      · by_cases h0 : depth = 0
        · obtain ⟨rfl, -⟩ := hfirst h0
          simp only [h0, nesting_nil, Nat.cast_zero, Int.add_zero, true_iff]
          exact ⟨[], List.nil_prefix, rfl⟩
        · obtain ⟨rfl, -⟩ := hinside h0
          simp [h0]
      · have hsum : depth + nesting (line :: more) = after + nesting more := by
          rw [hplaced.after_eq, nesting_cons, Int.add_assoc]
        rw [hsum, ih hrest hmore]
        by_cases h0 : depth = 0
        · obtain ⟨rfl, rfl⟩ := hfirst h0
          constructor
          · rintro ⟨first, hprefix, rfl⟩
            refine ⟨⟨⟨line, level⟩, rest'⟩ :: first, List.cons_prefix_cons.mpr ⟨rfl, hprefix⟩, ?_⟩
            simp [Group.lines]
          · rintro ⟨first, hprefix, heq⟩
            rcases List.prefix_cons_iff.mp hprefix with rfl | ⟨others, rfl, hothers⟩
            · simp at heq
            · exact ⟨others, hothers, by simpa [Group.lines] using heq⟩
        · obtain ⟨rfl, rfl⟩ := hinside h0
          simp

/-- The last line of a closed block closes it, and of the others only those that divide
it are back on its level. -/
theorem Closed.exists_last {lines : List NestedLine} (h : Closed lines) :
    ∃ inner last, lines = inner ++ [last] ∧ last.level = 0 ∧
      last.keyword? = some .endBlock ∧ ∀ l ∈ inner, l.level = 0 → l.keyword? = some .orElse := by
  induction h with
  | @close line hlevel hk => exact ⟨[], line, rfl, hlevel, hk, by simp⟩
  | @cons line lines hk _ ih =>
      obtain ⟨inner, last, rfl, hlevel, hlast, hinner⟩ := ih
      exact ⟨line :: inner, last, rfl, hlevel, hlast, List.forall_mem_cons.mpr ⟨hk, hinner⟩⟩

/-- The groups of lines, told by sums. -/
structure Grouped (lines : List SourceLine) (groups : List Group) : Prop where
  /-- The groups hold the lines, in order. -/
  lines_eq : (groups.flatMap Group.lines).map (·.toSourceLine) = lines
  /-- Groups end exactly at the points where no block is open. -/
  boundary : ∀ before, before <+: lines → (nesting before = 0 ↔
    ∃ first, first <+: groups ∧ (first.flatMap Group.lines).map (·.toSourceLine) = before)
  /-- Every line is on its level. -/
  level : ∀ before line after, groups.flatMap Group.lines = before ++ line :: after →
    (line.level : Int) = levelAt (nesting (before.map (·.toSourceLine))) line.toSourceLine
  /-- The first line of a group is outside blocks, and closes and divides none. -/
  head : ∀ g ∈ groups, g.head.level = 0 ∧ g.head.keyword? ≠ some .orElse ∧
    g.head.keyword? ≠ some .endBlock
  /-- A block ends with the line that closes it, and of the others only those that divide
  it are back on its level. -/
  block : ∀ g ∈ groups, ∀ k, g.head.keyword? = some k → k.opensBlock = true →
    ∃ inner last, g.rest = inner ++ [last] ∧ last.level = 0 ∧ last.keyword? = some .endBlock ∧
      ∀ l ∈ inner, l.level = 0 → l.keyword? = some .orElse
  /-- A group that opens no block is one line. -/
  single : ∀ g ∈ groups, (∀ k, g.head.keyword? = some k → k.opensBlock = false) → g.rest = []

/-- A group starts where no block is open, so its first line is on level zero, which a
line that closes or divides a block never is there. -/
theorem head_of_boundary {groups : List Group} (hlevel : Levelled 0 (groups.flatMap Group.lines))
    (hboundary : ∀ first, first <+: groups →
      nesting ((first.flatMap Group.lines).map (·.toSourceLine)) = 0) :
    ∀ g ∈ groups, g.head.level = 0 ∧ g.head.keyword? ≠ some .orElse ∧
      g.head.keyword? ≠ some .endBlock := by
  intro g hg
  obtain ⟨first, second, rfl⟩ := List.append_of_mem hg
  have hsum := hboundary first (List.prefix_append first (g :: second))
  have hsplit : (first ++ g :: second).flatMap Group.lines =
      first.flatMap Group.lines ++ g.head :: (g.rest ++ second.flatMap Group.lines) := by
    simp [Group.lines]
  have hhead := hlevel _ _ _ hsplit
  rw [hsum, levelAt] at hhead
  split at hhead
  · omega
  · next hne =>
    rw [not_or] at hne
    exact ⟨by omega, hne.2, hne.1⟩

theorem grouped_of_groupLines {lines : List SourceLine} {groups : List Group}
    (h : groupLines lines = .ok groups) : Grouped lines groups := by
  have hfrom := groupFrom_of_groupLines h
  have hlines := flatMap_lines_groupLines h
  have hlevel : Levelled 0 (groups.flatMap Group.lines) := levelled_of_groupFrom hfrom
  have hboundary : ∀ before, before <+: lines → (nesting before = 0 ↔
      ∃ first, first <+: groups ∧ (first.flatMap Group.lines).map (·.toSourceLine) = before) := by
    intro before hbefore
    simpa using boundary_of_groupFrom hfrom hbefore
  have hcomplete := complete_of_groupLines h
  refine ⟨hlines, hboundary, ?_, head_of_boundary hlevel ?_, ?_, fun g hg => (hcomplete g hg).single⟩
  · intro before line after heq
    simpa using hlevel before line after heq
  · intro first hfirst
    have hprefix : (first.flatMap Group.lines).map (·.toSourceLine) <+: lines := by
      obtain ⟨second, rfl⟩ := hfirst
      rw [← hlines, List.flatMap_append, List.map_append]
      exact List.prefix_append _ _
    exact (hboundary _ hprefix).mpr ⟨first, hfirst, rfl⟩
  · intro g hg k hk hopen
    exact ((hcomplete g hg).closed k hk hopen).exists_last

/-! ## lines that are not grouped -/

/-- The fault of the first line that may not stand where it is. -/
def FirstMisplaced (depth : Int) (lines : List SourceLine) (fault : Fault ParseCause) : Prop :=
  ∃ before line after, lines = before ++ line :: after ∧ WellPlaced depth before ∧
    Misplaced (depth + nesting before) line fault.cause ∧ fault.line = line.number

/-- The number of the line after which not all blocks are ever closed again: the first
line of the last group. -/
def LeftOpen (depth : Int) (lines : List SourceLine) (number : Nat) : Prop :=
  ∃ before line after, lines = before ++ line :: after ∧ depth + nesting before = 0 ∧
    StaysOpen (nestingDelta line.tokens) after ∧ number = line.number

theorem FirstMisplaced.cons {depth : Int} {line : SourceLine} {lines : List SourceLine}
    {fault : Fault ParseCause} (hline : ∀ cause, ¬Misplaced depth line cause)
    (h : FirstMisplaced (depth + nestingDelta line.tokens) lines fault) :
    FirstMisplaced depth (line :: lines) fault := by
  obtain ⟨before, bad, after, rfl, hbefore, hbad, hnumber⟩ := h
  refine ⟨line :: before, bad, after, rfl, wellPlaced_cons_iff.mpr ⟨hline, hbefore⟩, ?_, hnumber⟩
  rwa [nesting_cons, ← Int.add_assoc]

theorem LeftOpen.cons {depth : Int} {line : SourceLine} {lines : List SourceLine} {number : Nat}
    (h : LeftOpen (depth + nestingDelta line.tokens) lines number) :
    LeftOpen depth (line :: lines) number := by
  obtain ⟨before, head, after, rfl, hsum, hopen, hnumber⟩ := h
  refine ⟨line :: before, head, after, rfl, ?_, hopen, hnumber⟩
  rwa [nesting_cons, ← Int.add_assoc]

/-- Lines that are not grouped: the first that may not stand where it is is at fault.
If there is none, blocks are left open, and the line at fault is the first line of the
last group, which is `opener` if no group starts among the lines. -/
theorem fault_of_groupFrom {depth opener : Nat} {lines : List SourceLine}
    {fault : Fault ParseCause} (h : groupFrom depth opener lines = .error fault) :
    FirstMisplaced depth lines fault ∨
      (WellPlaced depth lines ∧ fault.cause = .unclosedBlock ∧
        ((StaysOpen depth lines ∧ fault.line = opener) ∨ LeftOpen depth lines fault.line)) := by
  induction lines generalizing depth opener with
  | nil =>
      unfold groupFrom at h
      split at h
      · contradiction
      · next hdepth =>
        cases h
        refine .inr ⟨wellPlaced_nil _, rfl, .inl ⟨?_, rfl⟩⟩
        intro first hfirst
        rw [List.prefix_nil.mp hfirst, nesting_nil]
        omega
  | cons line lines ih =>
      rcases groupFrom_cons_error h with hplace | ⟨level, after, hplace, hrest⟩
      · obtain ⟨hmisplaced, hnumber⟩ := misplaced_of_place hplace
        exact .inl ⟨[], line, lines, rfl, wellPlaced_nil _, by simpa using hmisplaced, hnumber⟩
      · have hline := not_misplaced_of_place hplace
        have hafter := (placed_of_place hplace).after_eq
        have hfault := ih hrest
        rw [hafter] at hfault
        rcases hfault with hfirst | ⟨hlines, hcause, hopen⟩
        · exact .inl (.cons hline hfirst)
        · refine .inr ⟨wellPlaced_cons_iff.mpr ⟨hline, hlines⟩, hcause, ?_⟩
          rcases hopen with ⟨hopen, hnumber⟩ | hopen
          · -- No group starts after `line`; `line` starts one exactly if no block is open.
            by_cases h0 : depth = 0
            · rw [if_pos h0] at hnumber
              refine .inr ⟨[], line, lines, rfl, by simp [h0], ?_, hnumber⟩
              simpa [h0] using hopen
            · rw [if_neg h0] at hnumber
              exact .inl ⟨staysOpen_cons_iff.mpr ⟨by omega, hopen⟩, hnumber⟩
          · exact .inr hopen.cons

theorem fault_of_groupLines {lines : List SourceLine} {fault : Fault ParseCause}
    (h : groupLines lines = .error fault) :
    FirstMisplaced 0 lines fault ∨
      (WellPlaced 0 lines ∧ fault.cause = .unclosedBlock ∧ LeftOpen 0 lines fault.line) := by
  rcases fault_of_groupFrom (groupFrom_of_groupLines_error h) with hfirst | ⟨hlines, hcause, ⟨hopen, -⟩ | hopen⟩
  · exact .inl hfirst
  · exact absurd rfl (hopen [] List.nil_prefix)
  · exact .inr ⟨hlines, hcause, hopen⟩

/-- Lines whose blocks are all closed at the end leave none open. -/
theorem LeftOpen.nesting_ne_zero {lines : List SourceLine} {number : Nat}
    (h : LeftOpen 0 lines number) : nesting lines ≠ 0 := by
  obtain ⟨before, line, after, rfl, hsum, hopen, -⟩ := h
  have hlast := hopen after (List.prefix_refl after)
  rw [nesting_append, nesting_cons]
  omega

/-- **Grouping is exact**: lines are grouped exactly if each may stand where it is and all
blocks are closed at the end, and the groups are then told by the sums.  If they are not
grouped, the first line that may not stand where it is is at fault, and if there is none,
the first line of the last group, which leaves blocks open. -/
theorem groupLines_exact (lines : List SourceLine) :
    ((∃ groups, groupLines lines = .ok groups) ↔ WellPlaced 0 lines ∧ nesting lines = 0) ∧
    (∀ groups, groupLines lines = .ok groups → Grouped lines groups) ∧
    ∀ fault, groupLines lines = .error fault →
      FirstMisplaced 0 lines fault ∨
        (WellPlaced 0 lines ∧ fault.cause = .unclosedBlock ∧ LeftOpen 0 lines fault.line) := by
  refine ⟨⟨?_, ?_⟩, fun _ => grouped_of_groupLines, fun _ => fault_of_groupLines⟩
  · rintro ⟨groups, h⟩
    simpa using wellPlaced_of_groupFrom (groupFrom_of_groupLines h)
  · rintro ⟨hlines, hsum⟩
    cases h : groupLines lines with
    | ok groups => exact ⟨groups, rfl⟩
    | error fault =>
        rcases fault_of_groupLines h with ⟨before, line, after, heq, -, hline, -⟩ | ⟨-, -, hopen⟩
        · exact absurd hline (hlines before line after heq fault.cause)
        · exact absurd hsum hopen.nesting_ne_zero

/-- A divided block with a loop in it, and an assignment after it. -/
def divided : List SourceLine :=
  [⟨1, [.keyword .ifTrue, .word "a"]⟩,
    ⟨2, [.keyword .forEach, .literal (.int 1), .operator (.binary .range), .literal (.int 3)]⟩,
    ⟨3, [.keyword .endBlock]⟩,
    ⟨4, [.keyword .orElse]⟩,
    ⟨5, [.keyword .print, .literal (.int 1)]⟩,
    ⟨6, [.keyword .endBlock]⟩,
    ⟨7, [.word "b", .operator .assign, .literal (.int 1)]⟩]

/-- All its lines make two groups.  Without the last two the block is left open, and not the
loop; without the first three its `else` divides nothing. -/
theorem groupLines_exact_divided :
    (∃ first second, groupLines divided = .ok [first, second] ∧
      Grouped divided [first, second]) ∧
    LeftOpen 0 (divided.take 5) 1 ∧
    FirstMisplaced 0 (divided.drop 3) ⟨.unexpectedKeyword .orElse, 4⟩ := by
  have hgroups : ∃ first second, groupLines divided = .ok [first, second] := ⟨_, _, by cbv⟩
  have hopen : groupLines (divided.take 5) = .error ⟨.unclosedBlock, 1⟩ := by cbv
  have helse : groupLines (divided.drop 3) = .error ⟨.unexpectedKeyword .orElse, 4⟩ := by cbv
  obtain ⟨first, second, hgroups⟩ := hgroups
  refine ⟨⟨first, second, hgroups, (groupLines_exact divided).2.1 _ hgroups⟩, ?_, ?_⟩
  · rcases (groupLines_exact (divided.take 5)).2.2 _ hopen with ⟨_, _, _, _, _, hline, _⟩ | hrest
    · cases hline
    · exact hrest.2.2
  · rcases (groupLines_exact (divided.drop 3)).2.2 _ helse with hfirst | ⟨-, hcause, -⟩
    · exact hfirst
    · contradiction

end LineScript
