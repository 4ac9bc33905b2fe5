import LineScript.Proofs.Block.Levels
import LineScript.Proofs.Program.Cases

/-!
# LineScript.Proofs.Program.Grammar

The grammar of programs, line by line, and that reading follows it.  The grammar
knows nothing of levels or groups: a block is a run of statements, and an `if`
ends with the `end` of its last branch, which a chain of `else if` shares.

* `derives_of_statements` — what is read is derived by the grammar.
-/

namespace LineScript

open Parse

/-! ## the grammar -/

/-- What lines can be derived as: one statement, the statements of a block, or
what follows the first branch of an `if`. -/
inductive Phrase where
  | statement (e : Expr)
  | block (p : List Expr)
  | tail (otherwise : Option (List Expr))

/-- The lines of a phrase.  The operands in them are spans of tokens that are
read as operands. -/
inductive Derives : List SourceLine → Phrase → Prop where
  | print {line : Nat} {args : List Token} {value : Expr}
      (h : Expr.ofTokens line args = .ok value) :
      Derives [⟨line, .keyword .print :: args⟩] (.statement (.print line value))
  | assign {line : Nat} {name : String} {args : List Token} {value : Expr}
      (h : Expr.ofTokens line args = .ok value) :
      Derives [⟨line, .word name :: .operator .assign :: args⟩]
        (.statement (.assign line name value))
  | operation {line : Nat} {name : String} {op : Operator} {rest : List Token} {e : Expr}
      (hassign : .operator .assign ∉ .word name :: .operator op :: rest)
      (h : Expr.ofTokens line (.word name :: .operator op :: rest) = .ok e) :
      Derives [⟨line, .word name :: .operator op :: rest⟩] (.statement e)
  | branch {line : Nat} {args : List Token} {condition : Expr} {body tail : List SourceLine}
      {p : List Expr} {otherwise : Option (List Expr)}
      (h : Expr.ofTokens line args = .ok condition) (hbody : Derives body (.block p))
      (htail : Derives tail (.tail otherwise)) :
      Derives (⟨line, .keyword .ifTrue :: args⟩ :: (body ++ tail))
        (.statement (.branch line condition p otherwise))
  | loop {line : Nat} (last : Nat) {args : List Token} {header range : Expr} {name : Option String}
      {body : List SourceLine} {p : List Expr} (h : Expr.ofTokens line args = .ok header)
      (hheader : LoopHeader header name range) (hbody : Derives body (.block p)) :
      Derives (⟨line, .keyword .forEach :: args⟩ :: (body ++ [⟨last, [.keyword .endBlock]⟩]))
        (.statement (.loop line name range p))
  | nil : Derives [] (.block [])
  | cons {first rest : List SourceLine} {e : Expr} {p : List Expr}
      (h : Derives first (.statement e)) (hrest : Derives rest (.block p)) :
      Derives (first ++ rest) (.block (e :: p))
  | close (last : Nat) : Derives [⟨last, [.keyword .endBlock]⟩] (.tail none)
  | otherwise (line last : Nat) {body : List SourceLine} {p : List Expr}
      (hbody : Derives body (.block p)) :
      Derives (⟨line, [.keyword .orElse]⟩ :: (body ++ [⟨last, [.keyword .endBlock]⟩]))
        (.tail (some p))
  | chained (line : Nat) {args : List Token} {condition : Expr} {body tail : List SourceLine}
      {p : List Expr} {otherwise : Option (List Expr)}
      (h : Expr.ofTokens line args = .ok condition) (hbody : Derives body (.block p))
      (htail : Derives tail (.tail otherwise)) :
      Derives (⟨line, .keyword .orElse :: .keyword .ifTrue :: args⟩ :: (body ++ tail))
        (.tail (some [.branch line condition p otherwise]))

/-! ## assigned names -/

/-- Operands assign nothing. -/
theorem Expr.Canonical.assigned_nodes {e : Expr} (h : e.Canonical) :
    e.nodes.filterMap Expr.assigned? = [] := by
  induction h with
  | literal line value => rfl
  | var line name => rfl
  | not line h ih => simpa [Expr.nodes, Expr.assigned?] using ih
  | binary line hl hr hleft hright hstart ihl ihr =>
      rw [Expr.nodes, List.filterMap_cons_none rfl, List.filterMap_append, ihl, ihr]
      rfl

theorem Parse.LoopHeader.canonical {header range : Expr} {name : Option String}
    (h : LoopHeader header name range) (hcan : header.Canonical) : range.Canonical := by
  cases h with
  | bare hrange => exact hcan
  | named n m name hrange =>
      cases hcan with
      | binary _ hl hr => exact hr

namespace Program

theorem assigned_singleton (e : Expr) : assigned [e] = e.nodes.filterMap Expr.assigned? := by
  simp [assigned, Expr.nodesAll]

theorem assigned_operand {e : Expr} (h : e.Canonical) : assigned [e] = [] := by
  rw [assigned_singleton, h.assigned_nodes]

theorem assigned_print {line : Nat} {value : Expr} (h : value.Canonical) :
    assigned [.print line value] = [] := by
  rw [assigned_singleton, Expr.nodes, List.filterMap_cons_none rfl, h.assigned_nodes]

theorem assigned_assign {line : Nat} {name : String} {value : Expr} (h : value.Canonical) :
    assigned [.assign line name value] = [name] := by
  simp [assigned_singleton, Expr.nodes, Expr.assigned?, h.assigned_nodes]

theorem assigned_branch {line : Nat} {condition : Expr} {p : List Expr}
    {otherwise : Option (List Expr)} (h : condition.Canonical) :
    assigned [.branch line condition p otherwise] =
      assigned p ++ assigned (otherwise.getD []) := by
  rw [assigned_singleton]
  unfold Expr.nodes
  rw [List.filterMap_cons_none rfl, List.filterMap_append, List.filterMap_append, h.assigned_nodes]
  cases otherwise <;> rfl

theorem assigned_loop {line : Nat} {name : Option String} {range : Expr} {p : List Expr}
    (h : range.Canonical) : assigned [.loop line name range p] = assigned p := by
  rw [assigned_singleton, Expr.nodes, List.filterMap_cons_none rfl, List.filterMap_append,
    h.assigned_nodes]
  rfl

end Program

/-- The names after reading are those before it and the added ones, and none is
there twice. -/
def Extends (names added after : List String) : Prop :=
  after = added.reverse ++ names ∧ (names.Nodup → after.Nodup)

theorem Extends.refl (names : List String) : Extends names [] names := ⟨rfl, id⟩

theorem Extends.trans {a b c xs ys : List String} (h : Extends a xs b) (h' : Extends b ys c) :
    Extends a (xs ++ ys) c := by
  obtain ⟨rfl, hb⟩ := h
  obtain ⟨rfl, hc⟩ := h'
  exact ⟨by simp, fun ha => hc (hb ha)⟩

/-! ## the lines of a branch -/

/-- The lines of a branch are those before the first on the level of the block around
them. -/
theorem takeWhile_append_of_level {inner rest : List NestedLine}
    (hinner : ∀ l ∈ inner, l.level ≠ 0) (hrest : ∀ l ∈ rest.head?, l.level = 0) :
    (inner ++ rest).takeWhile (·.level ≠ 0) = inner := by
  rw [List.takeWhile_append_of_pos (by simpa using hinner)]
  cases rest with
  | nil => simp
  | cons line rest => simp [hrest line rfl]

theorem find?_append_of_level {inner rest : List NestedLine} {closing : NestedLine}
    (hinner : ∀ l ∈ inner, l.level ≠ 0) (hlevel : closing.level = 0) :
    (inner ++ closing :: rest).find? (·.level = 0) = some closing := by
  rw [List.find?_append, List.find?_eq_none.mpr (by simpa using hinner)]
  simp [hlevel]

namespace Parse

theorem branchBody_inside {lines : List NestedLine} (h : ∀ l ∈ lines, l.level ≠ 0) :
    branchBody lines = .ok (lines.map (·.toSourceLine)) := by
  have hfind : lines.find? (·.level = 0) = none := by simpa using h
  have htake : (lines ++ []).takeWhile (·.level ≠ 0) = lines :=
    takeWhile_append_of_level h (by simp)
  rw [List.append_nil] at htake
  simp only [branchBody, hfind, htake]
  rfl

/-- A branch that is read up to a line of its own level is closed by it. -/
theorem branchBody_append {inner rest : List NestedLine} {closing : NestedLine}
    (h : ∀ l ∈ inner, l.level ≠ 0) (hlevel : closing.level = 0) :
    branchBody (inner ++ closing :: rest) =
      (checkClosing closing).map fun _ => inner.map (·.toSourceLine) := by
  have htake : (inner ++ closing :: rest).takeWhile (·.level ≠ 0) = inner :=
    takeWhile_append_of_level h (by simpa using hlevel)
  simp only [branchBody, find?_append_of_level h hlevel, htake]
  cases checkClosing closing <;> rfl

theorem checkClosing_eq_ok_iff {line : NestedLine} :
    checkClosing line = .ok () ↔ line.tokens = [.keyword .endBlock] := by
  unfold checkClosing
  split <;> simp_all

/-- A branch of a closed block that is read is everything but its last line. -/
theorem eq_append_of_branchBody {lines : List NestedLine} {body : List SourceLine}
    (hclosed : Closed lines) (h : branchBody lines = .ok body) :
    ∃ inner closing, lines = inner ++ [closing] ∧ closing.tokens = [.keyword .endBlock] ∧
      body = inner.map (·.toSourceLine) := by
  obtain ⟨inner, line, rest, rfl, hinner, hline, hrest⟩ := hclosed.exists_append
  rw [branchBody_append hinner hline] at h
  cases hcheck : checkClosing line with
  | error f => simp [hcheck, Except.map] at h
  | ok u =>
      have htokens := checkClosing_eq_ok_iff.mp hcheck
      simp only [hcheck, Except.map, Except.ok.injEq] at h
      rcases hrest with ⟨-, rfl⟩ | ⟨hk, -⟩
      · exact ⟨inner, line, rfl, htokens, h.symm⟩
      · simp [SourceLine.keyword?, htokens, Token.keyword?] at hk

theorem splitElse_append {inner rest : List NestedLine} {line : NestedLine}
    (h : ∀ l ∈ inner, l.level ≠ 0) :
    splitElse (inner ++ line :: rest) =
      (splitElse (line :: rest)).map fun (first, divider, second) =>
        (inner ++ first, divider, second) := by
  induction inner with
  | nil => simp
  | cons l inner ih =>
      have hl : l.level ≠ 0 := h l List.mem_cons_self
      rw [List.cons_append, splitElse, if_neg (by simp [hl]),
        ih fun x hx => h x (List.mem_cons_of_mem l hx), Option.map_map]
      rfl

theorem splitElse_divider {first second : List NestedLine} {divider : NestedLine}
    (h : ∀ l ∈ first, l.level ≠ 0) (hlevel : divider.level = 0)
    (hk : divider.keyword? = some .orElse) :
    splitElse (first ++ divider :: second) = some (first, divider, second) := by
  rw [splitElse_append h, splitElse, if_pos ⟨hlevel, hk⟩]
  simp

/-- A closed block is divided at its first line of its own level, if that is an
`else`. -/
theorem closed_of_splitElse {lines first second : List NestedLine} {divider : NestedLine}
    (hclosed : Closed lines) (h : splitElse lines = some (first, divider, second)) :
    (∀ l ∈ first, l.level ≠ 0) ∧ divider.keyword? = some .orElse ∧ Closed second := by
  obtain ⟨inner, line, rest, rfl, hinner, hline, hrest⟩ := hclosed.exists_append
  rcases hrest with ⟨hk, rfl⟩ | ⟨hk, hrest⟩
  · rw [splitElse_append hinner] at h
    simp [splitElse, hk] at h
  · rw [splitElse_divider hinner hline hk] at h
    cases h
    exact ⟨hinner, hk, hrest⟩

end Parse

theorem exists_tokens_of_keyword? {line : SourceLine} {k : Keyword} (h : line.keyword? = some k) :
    ∃ rest, line.tokens = .keyword k :: rest := by
  obtain ⟨number, tokens⟩ := line
  cases tokens with
  | nil => simp [SourceLine.keyword?] at h
  | cons token rest =>
      cases token with
      | keyword k' =>
          obtain rfl : k' = k := Option.some.inj h
          exact ⟨rest, rfl⟩
      | _ => simp [SourceLine.keyword?, Token.keyword?] at h

theorem map_lines_eq {g : Group} {tokens : List Token} (h : g.head.tokens = tokens) :
    g.lines.map (·.toSourceLine) = ⟨g.head.number, tokens⟩ :: g.rest.map (·.toSourceLine) := by
  simp [Group.lines, ← h]

/-! ## what is read is derived -/

mutual

/-- What a group is read as is derived from its lines. -/
theorem derives_of_statement (g : Group) {names after : List String} {e : Expr} (hg : g.Complete)
    (h : statement g names = .ok e after) :
    Derives (g.lines.map (·.toSourceLine)) (.statement e) ∧
      Extends names (Program.assigned [e]) after := by
  rcases statement_cases h with ⟨args, value, hhead, hvalue, rfl, rfl⟩ | ⟨args, hhead, hbranch⟩ |
    ⟨args, name, range, p, hhead, hloop, hblock, rfl⟩ | ⟨name, op, more, hhead, hop⟩
  · have hrest : g.rest = [] := hg.single (by simp [SourceLine.keyword?, hhead, Token.keyword?,
      Keyword.opensBlock])
    rw [map_lines_eq hhead, hrest, Program.assigned_print (Expr.canonical_of_read hvalue)]
    exact ⟨.print hvalue, .refl names⟩
  · have hclosed : Closed g.rest := hg.closed .ifTrue (by rw [SourceLine.keyword?, hhead]; rfl) rfl
    obtain ⟨condition, p, otherwise, body, tail, hcondition, rfl, hlines, hbody, htail, hnames⟩ :=
      derives_of_branch g.head.number args g.rest hclosed hbranch
    rw [map_lines_eq hhead, hlines]
    exact ⟨.branch hcondition hbody htail, hnames⟩
  · have hclosed : Closed g.rest := hg.closed .forEach (by rw [SourceLine.keyword?, hhead]; rfl) rfl
    obtain ⟨header, hread, hheader⟩ := loopHeader_eq_ok_iff.mp hloop
    obtain ⟨body, _, hbody, -⟩ := block_eq_ok_iff.mp hblock
    obtain ⟨hp, hnames⟩ := derives_of_block g.rest hbody hblock
    obtain ⟨inner, closing, hrest, hclosing, rfl⟩ := eq_append_of_branchBody hclosed hbody
    have hcan := hheader.canonical (Expr.canonical_of_read hread)
    rw [Program.assigned_loop hcan, map_lines_eq hhead, hrest, List.map_append]
    obtain ⟨⟨last, _⟩, _⟩ := closing
    obtain rfl : _ = _ := hclosing
    exact ⟨.loop last hread hheader hp, hnames⟩
  · have hrest : g.rest = [] := hg.single (by simp [SourceLine.keyword?, hhead, Token.keyword?])
    rw [map_lines_eq hhead, hrest]
    rcases operation_eq_ok_iff.mp hop with ⟨hassign, he, rfl⟩ |
      ⟨name', right, value, heq, hname, hvalue, rfl, rfl⟩
    · rw [Program.assigned_operand (Expr.canonical_of_read he)]
      exact ⟨.operation hassign he, .refl names⟩
    · rw [Program.assigned_assign (Expr.canonical_of_read hvalue), heq]
      exact ⟨.assign hvalue, rfl, fun hnodup => List.nodup_cons.mpr ⟨hname, hnodup⟩⟩
termination_by (g.size, 0)
decreasing_by all_goals (apply Prod.Lex.left; simp [Group.size])

/-- What groups are read as is derived from their lines. -/
theorem derives_of_statements : (groups : List Group) → {names after : List String} →
    {p : List Expr} → (∀ g ∈ groups, g.Complete) → statements groups names = .ok p after →
    Derives ((groups.flatMap Group.lines).map (·.toSourceLine)) (.block p) ∧
      Extends names (Program.assigned p) after
  | [], names, after, p, _, h => by
      rw [statements] at h
      obtain ⟨rfl, rfl⟩ := EStateM.pure_eq_ok_iff.mp h
      exact ⟨.nil, .refl names⟩
  | g :: groups, names, after, p, hgroups, h => by
      obtain ⟨e, es, between, he, hes, rfl⟩ := statements_cons_eq_ok_iff.mp h
      obtain ⟨hfirst, hadd⟩ := derives_of_statement g (hgroups g List.mem_cons_self) he
      obtain ⟨hrest, hadds⟩ := derives_of_statements groups
        (fun g' hg' => hgroups g' (List.mem_cons_of_mem g hg')) hes
      rw [Program.assigned_cons, List.flatMap_cons, List.map_append]
      exact ⟨.cons hfirst hrest, hadd.trans hadds⟩
termination_by groups => (Group.sizes groups, 1)
decreasing_by
  · rw [Group.sizes]
    rcases Nat.eq_zero_or_pos (Group.sizes groups) with h | h
    · rw [h]; exact Prod.Lex.right _ (by decide)
    · exact Prod.Lex.left _ _ (by omega)
  · apply Prod.Lex.left
    simp [Group.sizes, Group.size]

/-- What a branch is read as is derived from its lines. -/
theorem derives_of_block (lines : List NestedLine) {names after : List String} {p : List Expr}
    {body : List SourceLine} (hbody : branchBody lines = .ok body)
    (h : block lines names = .ok p after) :
    Derives body (.block p) ∧ Extends names (Program.assigned p) after := by
  obtain ⟨body', groups, hbody', hgroups, hp⟩ := block_eq_ok_iff.mp h
  obtain rfl : body' = body := Except.ok.inj (hbody'.symm.trans hbody)
  have hlines := derives_of_statements groups (complete_of_groupLines hgroups) hp
  rwa [flatMap_lines_groupLines hgroups] at hlines
termination_by (lines.length, 2)
decreasing_by
  have hle : Group.sizes groups ≤ lines.length :=
    length_groupLines hgroups ▸ length_branchBody hbody
  rcases Nat.lt_or_eq_of_le hle with h | h
  · exact Prod.Lex.left _ _ h
  · rw [h]; exact Prod.Lex.right _ (by decide)

/-- What an `if` is read as is derived from the lines after its first one. -/
theorem derives_of_branch (line : Nat) (args : List Token) (lines : List NestedLine)
    {names after : List String} {e : Expr} (hclosed : Closed lines)
    (h : branch line args lines names = .ok e after) :
    ∃ condition p otherwise body tail, Expr.ofTokens line args = .ok condition ∧
      e = .branch line condition p otherwise ∧ lines.map (·.toSourceLine) = body ++ tail ∧
      Derives body (.block p) ∧ Derives tail (.tail otherwise) ∧
      Extends names (Program.assigned [e]) after := by
  cases hsplit : splitElse lines with
  | none =>
      obtain ⟨condition, p, hcondition, hblock, rfl⟩ := (branch_none_eq_ok_iff hsplit).mp h
      obtain ⟨body, _, hbody, -⟩ := block_eq_ok_iff.mp hblock
      obtain ⟨hp, hnames⟩ := derives_of_block lines hbody hblock
      obtain ⟨inner, closing, rfl, hclosing, rfl⟩ := eq_append_of_branchBody hclosed hbody
      refine ⟨condition, p, none, _, [closing.toSourceLine], hcondition, rfl, by simp, hp, ?_, ?_⟩
      · obtain ⟨⟨last, _⟩, _⟩ := closing
        obtain rfl : _ = _ := hclosing
        exact .close last
      · rw [Program.assigned_branch (Expr.canonical_of_read hcondition)]
        simpa using hnames
  | some parts =>
      obtain ⟨first, divider, second⟩ := parts
      obtain ⟨hfirst, hdivider, hsecond⟩ := closed_of_splitElse hclosed hsplit
      obtain ⟨condition, p, between, hcondition, hblock, hrest⟩ :=
        (branch_some_eq_ok_iff hsplit).mp h
      obtain ⟨hp, hnames⟩ := derives_of_block first (branchBody_inside hfirst) hblock
      have hlines := splitElse_eq_some hsplit
      obtain ⟨⟨number, tokens⟩, level⟩ := divider
      obtain ⟨more, rfl⟩ := exists_tokens_of_keyword? hdivider
      rcases hrest with ⟨htail, otherwise, hotherwise, rfl⟩ | ⟨args', chained, htail, hchained, rfl⟩
      · obtain rfl : more = [] := htail
        obtain ⟨body, _, hbody, -⟩ := block_eq_ok_iff.mp hotherwise
        obtain ⟨hq, hnames'⟩ := derives_of_block second hbody hotherwise
        obtain ⟨inner, closing, rfl, hclosing, rfl⟩ := eq_append_of_branchBody hsecond hbody
        obtain ⟨⟨last, _⟩, _⟩ := closing
        obtain rfl : _ = _ := hclosing
        refine ⟨condition, p, some otherwise, first.map (·.toSourceLine), _, hcondition, rfl, ?_,
          hp, .otherwise number last hq, ?_⟩
        · simp [hlines]
        · rw [Program.assigned_branch (Expr.canonical_of_read hcondition)]
          exact hnames.trans hnames'
      · obtain rfl : more = _ := htail
        obtain ⟨condition', q, otherwise, body, tail, hcondition', rfl, hsecondLines, hq, htail,
          hnames'⟩ := derives_of_branch number args' second hsecond hchained
        refine ⟨condition, p, some [_], first.map (·.toSourceLine), _, hcondition, rfl, ?_, hp,
          .chained number hcondition' hq htail, ?_⟩
        · simp [hlines, hsecondLines]
        · rw [Program.assigned_branch (Expr.canonical_of_read hcondition)]
          exact hnames.trans hnames'
termination_by (lines.length, 3)
decreasing_by
  · exact Prod.Lex.right _ (by decide)
  · exact Prod.Lex.left _ _ (length_lt_of_splitElse hsplit).1
  · exact Prod.Lex.left _ _ (length_lt_of_splitElse hsplit).2
  · exact Prod.Lex.left _ _ (length_lt_of_splitElse hsplit).2

end

end LineScript
