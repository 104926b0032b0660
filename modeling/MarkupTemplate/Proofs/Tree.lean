/-
Trees by their levels and by their nodes.  A node is told by its kind, its own
content and its children, and what is below it is less high than the node.  The
nodes of a tree come in the order of the source, each before those below it.
-/
import MarkupTemplate.Node

namespace MarkupTemplate

namespace Node

@[simp] theorem kind_withChildren (nodes : List Node) (node : Node) :
    (node.withChildren nodes).kind = node.kind := by
  cases node <;> rfl

@[simp] theorem withChildren_children (node : Node) :
    node.withChildren node.children = node := by
  cases node <;> rfl

@[simp] theorem withChildren_withChildren (node : Node)
    (first later : List Node) :
    (node.withChildren first).withChildren later = node.withChildren later := by
  cases node <;> rfl

@[simp] theorem children_withChildren_map (node : Node) (f : Node → Node) :
    (node.withChildren (node.children.map f)).children =
      node.children.map f := by
  cases node <;> rfl

theorem height_eq (node : Node) : node.height = heights node.children + 1 := by
  cases node <;> rfl

theorem heights_children_lt (node : Node) :
    heights node.children < node.height := by
  rw [height_eq]
  exact Nat.lt_succ_self _

theorem height_le_of_mem {node : Node} {nodes : List Node} (h : node ∈ nodes) :
    node.height ≤ heights nodes := by
  induction nodes with
  | nil => simp at h
  | cons first nodes ih =>
      rw [heights]
      rcases List.mem_cons.mp h with rfl | h
      · exact Nat.le_max_left _ _
      · exact Nat.le_trans (ih h) (Nat.le_max_right _ _)

theorem heights_map {f : Node → Node} {nodes : List Node}
    (h : ∀ node ∈ nodes, (f node).height = node.height) :
    heights (nodes.map f) = heights nodes := by
  induction nodes with
  | nil => rfl
  | cons node nodes ih =>
      rw [List.map_cons, heights, heights, h node List.mem_cons_self,
        ih fun n hn => h n (List.mem_cons_of_mem _ hn)]

/-- What holds of a node if it holds of its children holds of every node. -/
@[elab_as_elim]
theorem inductionOn {P : Node → Prop} (node : Node)
    (step : ∀ node, (∀ child ∈ node.children, P child) → P node) : P node := by
  induction hheight : node.height using Nat.strongRecOn generalizing node with
  | ind height ih =>
      apply step
      intro child hchild
      have hchild := height_le_of_mem hchild
      have hbelow := node.heights_children_lt
      exact ih child.height (by omega) child rfl

/-! ## The nodes of a tree -/

theorem preorders_append (depth : Nat) (first later : List Node) :
    preorders depth (first ++ later) =
      preorders depth first ++ preorders depth later := by
  induction first with
  | nil => rfl
  | cons node nodes ih => simp [preorders, ih]

/-- The nodes of a tree, each before those below it. -/
def nodes (node : Node) : List Node :=
  (node.preorder 0).map (·.2)

mutual

theorem map_preorder (depth : Nat) :
    ∀ node : Node, (node.preorder depth).map (·.2) = node.nodes
  | root children span expr => by
      simp only [nodes, preorder, List.map_cons,
        map_preorders depth.succ children, map_preorders (0 + 1) children]
  | element tag attributes children selfClosing span expr => by
      simp only [nodes, preorder, List.map_cons,
        map_preorders depth.succ children, map_preorders (0 + 1) children]
  | text .. => rfl
  | interpolation .. => rfl
  | comment .. => rfl

theorem map_preorders (depth : Nat) : ∀ below : List Node,
    (preorders depth below).map (·.2) = below.flatMap nodes
  | [] => rfl
  | node :: below => by
      rw [preorders, List.map_append, map_preorder depth node,
        map_preorders depth below, List.flatMap_cons]

end

theorem nodes_eq (node : Node) :
    node.nodes = node :: node.children.flatMap nodes := by
  cases node with
  | root children => exact congrArg _ (map_preorders 1 children)
  | element _ _ children => exact congrArg _ (map_preorders 1 children)
  | _ => rfl

theorem mem_nodes_self (node : Node) : node ∈ node.nodes := by
  rw [nodes_eq]
  exact List.mem_cons_self

theorem mem_nodes_of_child {node child below : Node}
    (hchild : child ∈ node.children) (hbelow : below ∈ child.nodes) :
    below ∈ node.nodes := by
  rw [nodes_eq]
  exact List.mem_cons_of_mem _ (List.mem_flatMap.mpr ⟨child, hchild, hbelow⟩)

/-- What stands under a node of a tree stands below the top. -/
theorem mem_below {node upper child below : Node} (hupper : upper ∈ node.nodes)
    (hchild : child ∈ upper.children) (hbelow : below ∈ child.nodes) :
    below ∈ node.children.flatMap nodes := by
  induction node using inductionOn with
  | step node ih =>
      rw [nodes_eq] at hupper
      rcases List.mem_cons.mp hupper with rfl | hupper
      · exact List.mem_flatMap.mpr ⟨child, hchild, hbelow⟩
      · obtain ⟨top, htop, hupper⟩ := List.mem_flatMap.mp hupper
        refine List.mem_flatMap.mpr ⟨top, htop, ?_⟩
        rw [nodes_eq]
        exact List.mem_cons_of_mem _ (ih top htop hupper)

/-- A node that has nothing below it, whatever it holds. -/
def IsLeaf (node : Node) : Prop :=
  node.kind ≠ .root ∧ node.kind ≠ .element

theorem IsLeaf.withChildren {node : Node} (h : node.IsLeaf)
    (nodes : List Node) : node.withChildren nodes = node := by
  cases node <;> simp_all [IsLeaf, kind, Node.withChildren]

theorem preorders_leaves {nodes : List Node} (h : ∀ node ∈ nodes, node.IsLeaf)
    (depth : Nat) : preorders depth nodes = nodes.map (depth, ·) := by
  induction nodes with
  | nil => rfl
  | cons node nodes ih =>
      have hnode := h node List.mem_cons_self
      rw [preorders, ih fun n hn => h n (List.mem_cons_of_mem _ hn)]
      cases node <;> simp_all [IsLeaf, kind, preorder]

theorem flatMap_nodes_leaves {below : List Node}
    (h : ∀ node ∈ below, node.IsLeaf) : below.flatMap nodes = below := by
  rw [← map_preorders 0, preorders_leaves h, List.map_map]
  exact List.map_id below

end Node

end MarkupTemplate
