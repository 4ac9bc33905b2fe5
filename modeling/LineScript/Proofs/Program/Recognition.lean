import LineScript.Proofs.Program.Grammar
import Mathlib.Data.List.Nodup

/-!
# LineScript.Proofs.Program.Recognition

What the grammar derives is read.  Grouping meets the lines of a phrase inside
some open blocks and keeps them together, each at its level, so that the
delimiters of a block are told by their levels however deep it stands.

* `Derives.exists_adds` — the lines of a phrase stay together;
* `Derives.readable` — a phrase is read back from its lines;
* `parse_exact` — reading accepts exactly the grammar.
-/

namespace LineScript

open Parse

/-! ## the lines of a phrase stay together -/

theorem placed_endBlock (depth last : Nat) :
    Placed ⟨last, [.keyword .endBlock]⟩ (depth + 1) depth depth := .closes depth rfl

/-- How many blocks are open after a phrase that is met inside one more than
`depth`: what follows the first branch of an `if` closes that `if`. -/
def Phrase.openAfter (depth : Nat) : Phrase → Nat
  | .statement _ | .block _ => depth + 1
  | .tail _ => depth

theorem level_le_cons_append {n : Nat} {first : NestedLine} {inner rest : List NestedLine}
    (hfirst : first.level = n) (hinner : ∀ l ∈ inner, n + 1 ≤ l.level)
    (hrest : ∀ l ∈ rest, n ≤ l.level) : ∀ l ∈ first :: (inner ++ rest), n ≤ l.level := by
  intro l hl
  simp only [List.mem_cons, List.mem_append] at hl
  rcases hl with rfl | hl | hl
  · exact Nat.le_of_eq hfirst.symm
  · exact Nat.le_of_succ_le (hinner l hl)
  · exact hrest l hl

/-- The lines of a phrase stay together, at the level of the block they stand in
or deeper. -/
theorem Derives.exists_adds {lines : List SourceLine} {phrase : Phrase}
    (h : Derives lines phrase) (depth : Nat) :
    ∃ nested, nested.map (·.toSourceLine) = lines ∧
      (∀ l ∈ nested, phrase.openAfter depth ≤ l.level) ∧
      Adds (depth + 1) nested (phrase.openAfter depth) := by
  induction h generalizing depth with
  | @print line args value h =>
      exact ⟨[⟨_, depth + 1⟩], rfl, by simp [Phrase.openAfter],
        .single (.plain _ (by simp [SourceLine.keyword?, Token.keyword?]))⟩
  | @assign line name args value h =>
      exact ⟨[⟨_, depth + 1⟩], rfl, by simp [Phrase.openAfter],
        .single (.plain _ (by simp [SourceLine.keyword?, Token.keyword?]))⟩
  | @operation line name op rest e hassign h =>
      exact ⟨[⟨_, depth + 1⟩], rfl, by simp [Phrase.openAfter],
        .single (.plain _ (by simp [SourceLine.keyword?, Token.keyword?]))⟩
  | @branch line args condition body tail p otherwise h hbody htail ihbody ihtail =>
      obtain ⟨inner, rfl, hinner, hadds⟩ := ihbody (depth + 1)
      obtain ⟨rest, rfl, hrest, hadds'⟩ := ihtail (depth + 1)
      have hopen : Placed ⟨line, .keyword .ifTrue :: args⟩ (depth + 1) (depth + 1) (depth + 2) :=
        .opens _ rfl rfl
      have hall := Adds.cons hopen (hadds.trans hadds')
      exact ⟨_, by simp, level_le_cons_append rfl hinner hrest, hall⟩
  | @loop line last args header range name body p h hheader hbody ihbody =>
      obtain ⟨inner, rfl, hinner, hadds⟩ := ihbody (depth + 1)
      have hopen : Placed ⟨line, .keyword .forEach :: args⟩ (depth + 1) (depth + 1) (depth + 2) :=
        .opens _ rfl rfl
      have hall := Adds.cons hopen (hadds.trans (.single (placed_endBlock (depth + 1) last)))
      exact ⟨_, by simp, level_le_cons_append rfl hinner (by simp [Phrase.openAfter]), hall⟩
  | nil => exact ⟨[], rfl, by simp, .nil _⟩
  | cons h hrest ihfirst ihrest =>
      obtain ⟨first, rfl, hfirst, hadds⟩ := ihfirst depth
      obtain ⟨rest, rfl, hrest, hadds'⟩ := ihrest depth
      exact ⟨first ++ rest, by simp, List.forall_mem_append.mpr ⟨hfirst, hrest⟩,
        hadds.trans hadds'⟩
  | close last =>
      exact ⟨[⟨_, depth⟩], rfl, by simp [Phrase.openAfter], .single (placed_endBlock depth last)⟩
  | otherwise line last hbody ihbody =>
      obtain ⟨inner, rfl, hinner, hadds⟩ := ihbody depth
      have hdivide : Placed ⟨line, [.keyword .orElse]⟩ (depth + 1) depth (depth + 1) :=
        .divides _ rfl
      have hall := Adds.cons hdivide (hadds.trans (.single (placed_endBlock depth last)))
      exact ⟨_, by simp, level_le_cons_append rfl hinner (by simp [Phrase.openAfter]), hall⟩
  | @chained line args condition body tail p otherwise h hbody htail ihbody ihtail =>
      obtain ⟨inner, rfl, hinner, hadds⟩ := ihbody depth
      obtain ⟨rest, rfl, hrest, hadds'⟩ := ihtail depth
      have hdivide : Placed ⟨line, .keyword .orElse :: .keyword .ifTrue :: args⟩ (depth + 1) depth
          (depth + 1) := .divides _ rfl
      have hall := Adds.cons hdivide (hadds.trans hadds')
      exact ⟨_, by simp, level_le_cons_append rfl hinner hrest, hall⟩

/-! ## reading with new names -/

/-- Reading gives the result and adds the names, whenever they are new. -/
def Reads {α : Type} (x : Parse α) (a : α) (added : List String) : Prop :=
  ∀ names, (added.reverse ++ names).Nodup → x names = .ok a (added.reverse ++ names)

/-- The first names are new, and the others are new after them. -/
theorem nodup_reverse_append {xs ys names : List String}
    (h : ((xs ++ ys).reverse ++ names).Nodup) :
    (xs.reverse ++ names).Nodup ∧ (ys.reverse ++ (xs.reverse ++ names)).Nodup := by
  rw [List.reverse_append, List.append_assoc] at h
  exact ⟨(List.nodup_append.mp h).2.1, h⟩

theorem Reads.statements_cons {g : Group} {groups : List Group} {e : Expr} {p : List Expr}
    {xs ys : List String} (h : Reads (statement g) e xs) (h' : Reads (statements groups) p ys) :
    Reads (statements (g :: groups)) (e :: p) (xs ++ ys) := by
  intro names hnames
  obtain ⟨hfirst, hrest⟩ := nodup_reverse_append hnames
  refine statements_cons_eq_ok_iff.mpr ⟨e, p, _, h names hfirst, ?_, rfl⟩
  rw [h' _ hrest]
  simp

/-- Lines inside a block that are read as the given statements. -/
structure Body (inner : List NestedLine) (p : List Expr) : Prop where
  level_ne : ∀ l ∈ inner, l.level ≠ 0
  reads : ∃ groups, groupLines (inner.map (·.toSourceLine)) = .ok groups ∧
    Reads (statements groups) p (Program.assigned p)

namespace Body

variable {inner : List NestedLine} {p : List Expr}

theorem block (h : Body inner p) : Reads (block inner) p (Program.assigned p) := by
  obtain ⟨groups, hgroups, hreads⟩ := h.reads
  intro names hnames
  exact block_eq_ok_iff.mpr ⟨_, groups, branchBody_inside h.level_ne, hgroups, hreads names hnames⟩

theorem block_close (h : Body inner p) (last : Nat) :
    Reads (Parse.block (inner ++ [⟨⟨last, [.keyword .endBlock]⟩, 0⟩])) p (Program.assigned p) := by
  obtain ⟨groups, hgroups, hreads⟩ := h.reads
  have hbody : branchBody (inner ++ [⟨⟨last, [.keyword .endBlock]⟩, 0⟩]) =
      .ok (inner.map (·.toSourceLine)) := branchBody_append h.level_ne rfl
  intro names hnames
  exact block_eq_ok_iff.mpr ⟨_, groups, hbody, hgroups, hreads names hnames⟩

end Body

/-- What follows the first branch of an `if` completes it: after any first
branch, the lines are read as an `if` with the given second branch. -/
def Completes (rest : List NestedLine) (otherwise : Option (List Expr)) : Prop :=
  ∀ line args condition first p, Expr.ofTokens line args = .ok condition → Body first p →
    Reads (branch line args (first ++ rest)) (.branch line condition p otherwise)
      (Program.assigned [.branch line condition p otherwise])

theorem completes_close (last : Nat) : Completes [⟨⟨last, [.keyword .endBlock]⟩, 0⟩] none := by
  intro line args condition first p hcondition hfirst names hnames
  have hcan := Expr.canonical_of_read hcondition
  have hadded : Program.assigned [.branch line condition p none] = Program.assigned p := by
    simp [Program.assigned_branch hcan]
  rw [hadded] at hnames ⊢
  have hsplit : splitElse (first ++ [⟨⟨last, [.keyword .endBlock]⟩, 0⟩]) = none := by
    rw [splitElse_append hfirst.level_ne]
    rfl
  exact (branch_none_eq_ok_iff hsplit).mpr
    ⟨condition, p, hcondition, hfirst.block_close last names hnames, rfl⟩

theorem completes_otherwise (number last : Nat) {inner : List NestedLine} {q : List Expr}
    (h : Body inner q) :
    Completes (⟨⟨number, [.keyword .orElse]⟩, 0⟩ ::
      (inner ++ [⟨⟨last, [.keyword .endBlock]⟩, 0⟩])) (some q) := by
  intro line args condition first p hcondition hfirst names hnames
  have hcan := Expr.canonical_of_read hcondition
  rw [Program.assigned_branch hcan] at hnames ⊢
  obtain ⟨hnames₁, hnames₂⟩ := nodup_reverse_append hnames
  refine (branch_some_eq_ok_iff (splitElse_divider hfirst.level_ne rfl rfl)).mpr
    ⟨condition, p, _, hcondition, hfirst.block names hnames₁, .inl ⟨rfl, q, ?_, rfl⟩⟩
  rw [h.block_close last _ hnames₂]
  simp

theorem completes_chained (number : Nat) {args' : List Token} {condition' : Expr}
    {inner rest : List NestedLine} {q : List Expr} {otherwise : Option (List Expr)}
    (hcondition' : Expr.ofTokens number args' = .ok condition') (h : Body inner q)
    (hrest : Completes rest otherwise) :
    Completes (⟨⟨number, .keyword .orElse :: .keyword .ifTrue :: args'⟩, 0⟩ :: (inner ++ rest))
      (some [.branch number condition' q otherwise]) := by
  intro line args condition first p hcondition hfirst names hnames
  have hcan := Expr.canonical_of_read hcondition
  rw [Program.assigned_branch hcan] at hnames ⊢
  obtain ⟨hnames₁, hnames₂⟩ := nodup_reverse_append hnames
  refine (branch_some_eq_ok_iff (splitElse_divider hfirst.level_ne rfl rfl)).mpr
    ⟨condition, p, _, hcondition, hfirst.block names hnames₁, .inr ⟨args', _, rfl, ?_, rfl⟩⟩
  rw [hrest number args' condition' inner q hcondition' h _ hnames₂]
  simp

/-! ## what is derived is read -/

/-- The lines of a phrase are read as it. -/
def Readable (lines : List SourceLine) : Phrase → Prop
  | .statement e => ∃ g : Group,
      (∀ more, groupLines (lines ++ more) = (groupLines more).map (g :: ·)) ∧
        Reads (statement g) e (Program.assigned [e])
  | .block p => ∃ groups, groupLines lines = .ok groups ∧
      Reads (statements groups) p (Program.assigned p)
  | .tail otherwise => ∃ nested, nested.map (·.toSourceLine) = lines ∧ Adds 1 nested 0 ∧
      Completes nested otherwise

theorem Derives.exists_body {lines : List SourceLine} {p : List Expr}
    (h : Derives lines (.block p)) (hread : Readable lines (.block p)) :
    ∃ inner, inner.map (·.toSourceLine) = lines ∧ Adds 1 inner 1 ∧ Body inner p := by
  obtain ⟨inner, rfl, hlevel, hadds⟩ := h.exists_adds 0
  exact ⟨inner, rfl, hadds, fun l hl => Nat.ne_of_gt (hlevel l hl), hread⟩

/-- **Completeness**: whatever the grammar derives is read. -/
theorem Derives.readable {lines : List SourceLine} {phrase : Phrase} (h : Derives lines phrase) :
    Readable lines phrase := by
  induction h with
  | @print line args value h =>
      have hcan := Expr.canonical_of_read h
      refine ⟨_, groupLines_single (by simp [SourceLine.keyword?, Token.keyword?]) rfl, ?_⟩
      rw [Program.assigned_print hcan]
      exact fun names _ => statement_print h
  | @assign line name args value h =>
      have hcan := Expr.canonical_of_read h
      refine ⟨_, groupLines_single (by simp [SourceLine.keyword?, Token.keyword?]) rfl, ?_⟩
      rw [Program.assigned_assign hcan]
      intro names hnames
      rw [statement_word]
      exact operation_eq_ok_iff.mpr
        (.inr ⟨name, args, value, rfl, (List.nodup_cons.mp hnames).1, h, rfl, rfl⟩)
  | @operation line name op rest e hassign h =>
      have hcan := Expr.canonical_of_read h
      refine ⟨_, groupLines_single (by simp [SourceLine.keyword?, Token.keyword?]) rfl, ?_⟩
      rw [Program.assigned_operand hcan]
      intro names _
      rw [statement_word]
      exact operation_eq_ok_iff.mpr (.inl ⟨hassign, h, rfl⟩)
  | @branch line args condition body tail p otherwise h hbody htail ihbody ihtail =>
      obtain ⟨inner, rfl, hadds, hinner⟩ := hbody.exists_body ihbody
      obtain ⟨rest, rfl, hadds', hrest⟩ := ihtail
      have hgroup : ∀ more, groupLines (⟨line, .keyword .ifTrue :: args⟩ ::
          ((inner ++ rest).map (·.toSourceLine) ++ more)) = _ :=
        groupLines_block rfl rfl rfl (hadds.trans hadds')
      refine ⟨_, fun more => by simpa using hgroup more, ?_⟩
      rw [statement_ifTrue]
      exact hrest line args condition inner p h hinner
  | @loop line last args header range name body p h hheader hbody ihbody =>
      obtain ⟨inner, rfl, hadds, hinner⟩ := hbody.exists_body ihbody
      have hcan := hheader.canonical (Expr.canonical_of_read h)
      have hgroup : ∀ more, groupLines (⟨line, .keyword .forEach :: args⟩ ::
          (List.map NestedLine.toSourceLine (inner ++ [⟨⟨last, [.keyword .endBlock]⟩, 0⟩]) ++
            more)) = _ :=
        groupLines_block rfl rfl rfl (hadds.trans (.single (placed_endBlock 0 last)))
      refine ⟨_, fun more => by simpa using hgroup more, ?_⟩
      rw [Program.assigned_loop hcan]
      intro names hnames
      exact statement_forEach (loopHeader_eq_ok_iff.mpr ⟨header, h, hheader⟩)
        (hinner.block_close last names hnames)
  | nil => exact ⟨[], rfl, fun names _ => by rw [statements]; rfl⟩
  | @cons first rest e p h hrest ihfirst ihrest =>
      obtain ⟨g, hg, hreads⟩ := ihfirst
      obtain ⟨groups, hgroups, hreads'⟩ := ihrest
      refine ⟨g :: groups, by rw [hg, hgroups]; rfl, ?_⟩
      rw [Program.assigned_cons]
      exact hreads.statements_cons hreads'
  | close last =>
      exact ⟨[⟨_, 0⟩], rfl, .single (placed_endBlock 0 last), completes_close last⟩
  | otherwise line last hbody ihbody =>
      obtain ⟨inner, rfl, hadds, hinner⟩ := hbody.exists_body ihbody
      have hdivide : Placed ⟨line, [.keyword .orElse]⟩ 1 0 1 := .divides 0 rfl
      have hall := Adds.cons hdivide (hadds.trans (.single (placed_endBlock 0 last)))
      exact ⟨_, by simp, hall, completes_otherwise line last hinner⟩
  | @chained line args condition body tail p otherwise h hbody htail ihbody ihtail =>
      obtain ⟨inner, rfl, hadds, hinner⟩ := hbody.exists_body ihbody
      obtain ⟨rest, rfl, hadds', hrest⟩ := ihtail
      have hdivide : Placed ⟨line, .keyword .orElse :: .keyword .ifTrue :: args⟩ 1 0 1 :=
        .divides 0 rfl
      have hall := Adds.cons hdivide (hadds.trans hadds')
      exact ⟨_, by simp, hall, completes_chained line h hinner hrest⟩

/-! ## exactness -/

theorem program_eq_ok_iff {lines : List SourceLine} {p : Program} {names after : List String}
    (hnames : names.Nodup) :
    Parse.program lines names = .ok p after ↔
      Derives lines (.block p) ∧ after = p.assigned.reverse ++ names ∧ after.Nodup := by
  rw [program_eq_ok_iff_groups]
  constructor
  · rintro ⟨groups, hgroups, h⟩
    obtain ⟨hderives, hafter, hnodup⟩ :=
      derives_of_statements groups (complete_of_groupLines hgroups) h
    rw [flatMap_lines_groupLines hgroups] at hderives
    exact ⟨hderives, hafter, hnodup hnames⟩
  · rintro ⟨hderives, rfl, hnodup⟩
    obtain ⟨groups, hgroups, hreads⟩ := hderives.readable
    exact ⟨groups, hgroups, hreads names hnodup⟩

/-- **Reading accepts exactly the grammar**: lines are read as a program exactly
if the grammar derives it from them and it assigns no name twice. -/
theorem parse_exact (lines : List SourceLine) (p : Program) :
    parse lines = .ok p ↔ Derives lines (.block p) ∧ p.assigned.Nodup := by
  constructor
  · intro h
    obtain ⟨after, hread⟩ := exists_program_of_parse h
    obtain ⟨hderives, rfl, hnodup⟩ := (program_eq_ok_iff List.nodup_nil).mp hread
    exact ⟨hderives, by simpa using hnodup⟩
  · rintro ⟨hderives, hnodup⟩
    have hread := (program_eq_ok_iff List.nodup_nil).mpr ⟨hderives, rfl, by simpa using hnodup⟩
    exact parse_of_program_ok hread

end LineScript
