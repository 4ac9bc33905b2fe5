import LineScript.Expr.Basic

/-!
# LineScript.Proofs.Expr.Nodes

The nodes of a tree, and what is read off them: which operators it holds and
which names it assigns.  `nodes` lists a node before what is below it, from left
to right, so that it follows the order of the source.
-/

namespace LineScript

namespace Expr

mutual

/-- The nodes of a tree: the tree itself, then the nodes of its operands, then
those of its blocks. -/
def nodes : Expr → List Expr
  | literal line value => [.literal line value]
  | var line name => [.var line name]
  | not line operand => .not line operand :: nodes operand
  | binary line op left right => .binary line op left right :: (nodes left ++ nodes right)
  | assign line name value => .assign line name value :: nodes value
  | print line value => .print line value :: nodes value
  | branch line condition body otherwise =>
    .branch line condition body otherwise :: (nodes condition ++ nodesAll body ++
      match otherwise with
      | some body => nodesAll body
      | none => [])
  | loop line name range body => .loop line name range body :: (nodes range ++ nodesAll body)

/-- The nodes of several trees, in order. -/
def nodesAll : List Expr → List Expr
  | [] => []
  | e :: es => nodes e ++ nodesAll es

end

theorem self_mem_nodes (e : Expr) : e ∈ e.nodes := by
  cases e <;> (unfold nodes; exact List.mem_cons_self)

theorem nodes_branch (line : Nat) (condition : Expr) (body : List Expr)
    (otherwise : Option (List Expr)) :
    (branch line condition body otherwise).nodes = .branch line condition body otherwise ::
      (condition.nodes ++ nodesAll body ++ nodesAll (otherwise.getD [])) := by
  cases otherwise <;> simp [nodes, nodesAll]

theorem nodesAll_append (xs ys : List Expr) : nodesAll (xs ++ ys) = nodesAll xs ++ nodesAll ys := by
  induction xs with
  | nil => rfl
  | cons x xs ih => simp [nodesAll, ih]

/-! ## right below a node -/

/-- The operands right below a node. -/
def operands : Expr → List Expr
  | literal .. | var .. => []
  | not _ operand => [operand]
  | binary _ _ left right => [left, right]
  | assign _ _ value => [value]
  | print _ value => [value]
  | branch _ condition _ _ => [condition]
  | loop _ _ range _ => [range]

/-- The blocks right below a node. -/
def blocks : Expr → List (List Expr)
  | branch _ _ body otherwise => body :: otherwise.toList
  | loop _ _ _ body => [body]
  | _ => []

/-- The nodes of a tree are the tree itself and those of its operands and its
blocks. -/
theorem nodes_eq (e : Expr) :
    e.nodes = e :: (e.operands.flatMap nodes ++ e.blocks.flatMap nodesAll) := by
  cases e with
  | branch line condition body otherwise => cases otherwise <;> simp [nodes, operands, blocks]
  | _ => simp [nodes, operands, blocks]

theorem mem_nodes_iff {node e : Expr} :
    node ∈ e.nodes ↔ node = e ∨ (∃ operand ∈ e.operands, node ∈ operand.nodes) ∨
      ∃ body ∈ e.blocks, node ∈ nodesAll body := by
  rw [nodes_eq, List.mem_cons, List.mem_append, List.mem_flatMap, List.mem_flatMap]

theorem nodes_subset_of_mem_operands {e operand : Expr} (h : operand ∈ e.operands) :
    operand.nodes ⊆ e.nodes :=
  fun _ hnode => mem_nodes_iff.mpr (.inr (.inl ⟨operand, h, hnode⟩))

theorem nodesAll_subset_of_mem_blocks {e : Expr} {body : List Expr} (h : body ∈ e.blocks) :
    nodesAll body ⊆ e.nodes :=
  fun _ hnode => mem_nodes_iff.mpr (.inr (.inr ⟨body, h, hnode⟩))

theorem sizeOf_lt_of_mem_operands {e operand : Expr} (h : operand ∈ e.operands) :
    sizeOf operand < sizeOf e := by
  cases e <;> grind [operands]

theorem sizeOf_lt_of_mem_blocks {e : Expr} {body : List Expr} (h : body ∈ e.blocks) :
    sizeOf body < sizeOf e := by
  cases e with
  | branch line condition first otherwise => cases otherwise <;> grind [blocks]
  | _ => grind [blocks]

mutual

/-- The nodes of a node are nodes of the tree. -/
theorem nodes_subset_of_mem_nodes {e node : Expr} (h : node ∈ e.nodes) : node.nodes ⊆ e.nodes := by
  rcases mem_nodes_iff.mp h with rfl | ⟨operand, hmem, h⟩ | ⟨body, hmem, h⟩
  · exact List.Subset.refl _
  · have hlt := sizeOf_lt_of_mem_operands hmem
    exact List.Subset.trans (nodes_subset_of_mem_nodes h) (nodes_subset_of_mem_operands hmem)
  · have hlt := sizeOf_lt_of_mem_blocks hmem
    exact List.Subset.trans (nodes_subset_of_mem_nodesAll h) (nodesAll_subset_of_mem_blocks hmem)
termination_by sizeOf e

theorem nodes_subset_of_mem_nodesAll {es : List Expr} {node : Expr} (h : node ∈ nodesAll es) :
    node.nodes ⊆ nodesAll es := by
  cases es with
  | nil => simp [nodesAll] at h
  | cons e es =>
      rw [nodesAll] at h ⊢
      rcases List.mem_append.mp h with h | h
      · exact List.Subset.trans (nodes_subset_of_mem_nodes h) (List.subset_append_left _ _)
      · exact List.Subset.trans (nodes_subset_of_mem_nodesAll h) (List.subset_append_right _ _)
termination_by sizeOf es

end

/-- A tree holds an operator when one of its nodes is an operation with it. -/
def Uses (e : Expr) (op : BinaryOp) : Prop :=
  ∃ line left right, .binary line op left right ∈ e.nodes

theorem uses_binary {line : Nat} {o op : BinaryOp} {left right : Expr} :
    (binary line o left right).Uses op ↔ left.Uses op ∨ op = o ∨ right.Uses op := by
  simp only [Uses, nodes, List.mem_cons, List.mem_append, binary.injEq]
  constructor
  · rintro ⟨n, l, r, ⟨rfl, rfl, rfl, rfl⟩ | hmem | hmem⟩
    · exact .inr (.inl rfl)
    · exact .inl ⟨n, l, r, hmem⟩
    · exact .inr (.inr ⟨n, l, r, hmem⟩)
  · rintro (⟨n, l, r, hmem⟩ | rfl | ⟨n, l, r, hmem⟩)
    · exact ⟨n, l, r, .inr (.inl hmem)⟩
    · exact ⟨line, left, right, .inl ⟨rfl, rfl, rfl, rfl⟩⟩
    · exact ⟨n, l, r, .inr (.inr hmem)⟩

/-! ## assigned names -/

/-- The name a node assigns, if it is an assignment. -/
def assigned? : Expr → Option String
  | assign _ name _ => some name
  | _ => none

end Expr

/-- The names a program assigns, at top level or in any block, in the order of
the source. -/
def Program.assigned (program : Program) : List String :=
  (Expr.nodesAll program).filterMap Expr.assigned?

namespace Program

@[simp] theorem assigned_nil : assigned [] = [] := rfl

theorem assigned_append (p q : Program) : assigned (p ++ q) = assigned p ++ assigned q := by
  simp [assigned, Expr.nodesAll_append]

theorem assigned_cons (e : Expr) (p : Program) : assigned (e :: p) = assigned [e] ++ assigned p :=
  assigned_append [e] p

end Program

end LineScript
