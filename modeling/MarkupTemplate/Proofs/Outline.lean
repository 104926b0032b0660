/-
The outline of a tree tells the tree, but for what it does not show.  A line is
decoded from the front: the dashes tell the depth, the letters behind them the
kind, and the rest the label.  The depths in their order then tell what is below
what, since a line that is not deeper than a node ends what is below it.
-/
import MarkupTemplate.Proofs.Tree
import MarkupTemplate.Proofs.Rendering
import MarkupTemplate.Proofs.Token

namespace MarkupTemplate

/-- What a tree is without attributes, spans and expressions: kinds, and the
tag, content or expression of every node but roots. -/
inductive Skeleton where
  | node (kind : Kind) (label : Option String) (below : List Skeleton)

structure OutlineRow where
  depth : Nat
  kind : Kind
  label : String

namespace OutlineRow

def tail (row : OutlineRow) : List Char :=
  if row.label = "" then [] else ':' :: ' ' :: row.label.toList

def line (row : OutlineRow) : List Char :=
  List.replicate (2 * row.depth) '-' ++
    (row.kind.name.toList ++ (row.tail ++ ['\n']))

theorem cancel_tail {row row' : OutlineRow} {rest rest' : List Char}
    (hlabel : '\n' ∉ row.label.toList) (hlabel' : '\n' ∉ row'.label.toList)
    (h : row.tail ++ '\n' :: rest = row'.tail ++ '\n' :: rest') :
    row.label = row'.label ∧ rest = rest' := by
  have hline : ∀ {r : OutlineRow}, '\n' ∉ r.label.toList →
      ∀ c ∈ r.tail, (c != '\n') = true := by
    intro r hr c hc
    rw [bne_iff_ne]
    rintro rfl
    unfold tail at hc
    split at hc <;> simp [hr] at hc
  obtain ⟨htail, hrest⟩ :=
    cancel_run (hline hlabel) (hline hlabel') (by simp) (by simp) h
  refine ⟨?_, (List.cons.inj hrest).2⟩
  unfold tail at htail
  split at htail
  · next hempty =>
      split at htail
      · next hempty' => rw [hempty, hempty']
      · contradiction
  · split at htail
    · contradiction
    · simpa [String.toList_inj] using htail

/-- Lines that begin the same text are the same, and so is what follows them. -/
theorem cancel_line {row row' : OutlineRow} {rest rest' : List Char}
    (hlabel : '\n' ∉ row.label.toList) (hlabel' : '\n' ∉ row'.label.toList)
    (h : row.line ++ rest = row'.line ++ rest') :
    row = row' ∧ rest = rest' := by
  have hname : ∀ kind : Kind, ∀ c ∈ kind.name.toList, c.isAlpha = true := by
    intro kind
    cases kind <;> simp [Kind.name]
  have hhead : ∀ (kind : Kind) (more : List Char),
      ∀ c ∈ (kind.name.toList ++ more).head?, (c == '-') = false := by
    intro kind more
    cases kind <;> simp [Kind.name]
  have htail : ∀ (r : OutlineRow) (more : List Char),
      ∀ c ∈ (r.tail ++ '\n' :: more).head?, c.isAlpha = false := by
    intro r more
    unfold tail
    split <;> simp
  simp only [line, List.append_assoc, List.singleton_append] at h
  obtain ⟨hdepth, h⟩ :=
    cancel_run (p := (· == '-')) (by simp) (by simp) (hhead _ _) (hhead _ _) h
  obtain ⟨hkind, h⟩ := cancel_run (hname _) (hname _) (htail _ _) (htail _ _) h
  obtain ⟨hlabels, hrest⟩ := cancel_tail hlabel hlabel' h
  have hdepth : row.depth = row'.depth := by
    have hlength := congrArg List.length hdepth
    simp only [List.length_replicate] at hlength
    omega
  have hkind : row.kind = row'.kind := by
    have hnames : ∀ k k' : Kind, k.name = k'.name → k = k' := by
      intro k k'
      cases k <;> cases k' <;> decide
    exact hnames _ _ (String.toList_inj.mp hkind)
  cases row
  cases row'
  simp_all

theorem cancel_lines {rows rows' : List OutlineRow}
    (hrows : ∀ row ∈ rows, '\n' ∉ row.label.toList)
    (hrows' : ∀ row ∈ rows', '\n' ∉ row.label.toList)
    (h : rows.flatMap line = rows'.flatMap line) : rows = rows' := by
  have hline : ∀ (row : OutlineRow) (rows : List OutlineRow),
      (row :: rows).flatMap line ≠ [] := by
    simp [line]
  induction rows generalizing rows' with
  | nil =>
      cases rows' with
      | nil => rfl
      | cons row' rows' => exact absurd h.symm (hline row' rows')
  | cons row rows ih =>
      cases rows' with
      | nil => exact absurd h (hline row rows)
      | cons row' rows' =>
          rw [List.flatMap_cons, List.flatMap_cons] at h
          obtain ⟨rfl, hlater⟩ := cancel_line (hrows row List.mem_cons_self)
            (hrows' row' List.mem_cons_self) h
          rw [ih (fun r hr => hrows r (List.mem_cons_of_mem _ hr))
            (fun r hr => hrows' r (List.mem_cons_of_mem _ hr)) hlater]

end OutlineRow

namespace Node

mutual

def skeleton : Node → Skeleton
  | root children _ _ => .node .root none (skeletons children)
  | element tag _ children _ _ _ =>
      .node .element (some tag) (skeletons children)
  | text content _ _ => .node .text (some content) []
  | interpolation expression _ _ => .node .interpolation (some expression) []
  | comment content _ _ => .node .comment (some content) []

def skeletons : List Node → List Skeleton
  | [] => []
  | node :: nodes => skeleton node :: skeletons nodes

end

theorem skeleton_eq (node : Node) :
    node.skeleton = .node node.kind node.label? (skeletons node.children) := by
  cases node <;> rfl

theorem preorder_eq (depth : Nat) (node : Node) :
    node.preorder depth = (depth, node) ::
      preorders (depth + 1) node.children := by
  cases node <;> rfl

def outlineRow (depth : Nat) (node : Node) : OutlineRow :=
  ⟨depth, node.kind, node.label?.getD ""⟩

theorem toList_outlineLine (depth : Nat) (node : Node) :
    (outlineLine depth node).toList = (outlineRow depth node).line := by
  by_cases hlabel : node.label?.getD "" = "" <;>
    simp [outlineLine, outlineRow, OutlineRow.line, OutlineRow.tail,
      toList_pushn, hlabel]

/-- The rows of the outline of nodes side by side. -/
def outlineRows (depth : Nat) (nodes : List Node) : List OutlineRow :=
  (preorders depth nodes).map fun (depth, node) => outlineRow depth node

theorem outlineRows_cons (depth : Nat) (node : Node) (nodes : List Node) :
    outlineRows depth (node :: nodes) =
      outlineRow depth node ::
        (outlineRows (depth + 1) node.children ++ outlineRows depth nodes) := by
  simp [outlineRows, preorders, preorder_eq]

theorem toList_outline (node : Node) :
    node.outline.toList = (outlineRows 0 [node]).flatMap OutlineRow.line := by
  simp only [outline, outlineRows, preorders, List.append_nil,
    String.toList_join, List.flatMap_map, toList_outlineLine]

/-- Rows that do not go on with what is below a depth. -/
def EndsBelow (depth : Nat) (rows : List OutlineRow) : Prop :=
  ∀ row ∈ rows.head?, row.depth < depth

theorem endsBelow_outlineRows {depth : Nat} {rest : List OutlineRow}
    (hrest : EndsBelow depth rest) (nodes : List Node) :
    EndsBelow (depth + 1) (outlineRows depth nodes ++ rest) := by
  cases nodes with
  | nil =>
      intro row hrow
      exact Nat.lt_succ_of_lt (hrest row hrow)
  | cons node nodes =>
      intro row hrow
      simp only [outlineRows_cons, List.cons_append, List.head?_cons,
        Option.mem_some_iff] at hrow
      simp [← hrow, outlineRow]

theorem not_endsBelow_cons {depth : Nat} {node : Node} {nodes : List Node}
    {rows : List OutlineRow} :
    ¬ EndsBelow depth (outlineRows depth (node :: nodes) ++ rows) := by
  intro h
  have hdepth := h (outlineRow depth node) (by simp [outlineRows_cons])
  exact Nat.lt_irrefl _ hdepth

theorem skeleton_eq_of_outlineRow {depth : Nat} {node node' : Node}
    (hrow : outlineRow depth node = outlineRow depth node')
    (hbelow : skeletons node.children = skeletons node'.children) :
    node.skeleton = node'.skeleton := by
  rw [skeleton_eq, skeleton_eq, hbelow]
  cases node <;> cases node' <;> simp_all [outlineRow, kind, label?]

/-- Rows of nodes side by side tell the nodes, if what follows is less deep. -/
theorem cancel_outlineRows {depth : Nat} {nodes nodes' : List Node}
    {rest rest' : List OutlineRow} (hrest : EndsBelow depth rest)
    (hrest' : EndsBelow depth rest')
    (h : outlineRows depth nodes ++ rest = outlineRows depth nodes' ++ rest') :
    skeletons nodes = skeletons nodes' ∧ rest = rest' := by
  -- the rows of the children and those of the later siblings are both fewer
  induction hsize : (outlineRows depth nodes).length using Nat.strongRecOn
    generalizing depth nodes nodes' rest rest' with
  | ind size ih =>
      cases nodes with
      | nil =>
          cases nodes' with
          | nil => exact ⟨rfl, h⟩
          | cons node' nodes' =>
              rw [show rest = _ from h] at hrest
              exact absurd hrest not_endsBelow_cons
      | cons node nodes =>
          cases nodes' with
          | nil =>
              rw [show rest' = _ from h.symm] at hrest'
              exact absurd hrest' not_endsBelow_cons
          | cons node' nodes' =>
              simp only [outlineRows_cons, List.length_cons,
                List.length_append] at hsize
              simp only [outlineRows_cons, List.cons_append, List.append_assoc,
                List.cons.injEq] at h
              obtain ⟨hbelow, hlater⟩ :=
                ih _ (by omega) (endsBelow_outlineRows hrest nodes)
                (endsBelow_outlineRows hrest' nodes') h.2 rfl
              obtain ⟨hnodes, hrests⟩ := ih _ (by omega) hrest hrest' hlater rfl
              rw [skeletons, skeletons,
                skeleton_eq_of_outlineRow h.1 hbelow, hnodes]
              exact ⟨rfl, hrests⟩

/-- An outline shows no more than the skeleton. -/
theorem outlineRows_congr {depth : Nat} {nodes nodes' : List Node}
    (h : skeletons nodes = skeletons nodes') :
    outlineRows depth nodes = outlineRows depth nodes' := by
  induction hsize : (outlineRows depth nodes).length using Nat.strongRecOn
    generalizing depth nodes nodes' with
  | ind size ih =>
      cases nodes with
      | nil =>
          cases nodes' with
          | nil => rfl
          | cons => simp [skeletons] at h
      | cons node nodes =>
          cases nodes' with
          | nil => simp [skeletons] at h
          | cons node' nodes' =>
              simp only [outlineRows_cons, List.length_cons,
                List.length_append] at hsize
              simp only [skeletons, skeleton_eq, List.cons.injEq,
                Skeleton.node.injEq] at h
              obtain ⟨⟨hkind, hlabel, hbelow⟩, hlater⟩ := h
              rw [outlineRows_cons, outlineRows_cons,
                ih _ (by omega) hbelow rfl, ih _ (by omega) hlater rfl,
                outlineRow, outlineRow, hkind, hlabel]

/-- No tag, content or expression of a tree breaks its line of the outline. -/
def FitsOutline (node : Node) : Prop :=
  ∀ n ∈ node.nodes, ∀ label ∈ n.label?, '\n' ∉ label.toList

theorem FitsOutline.rows {node : Node} (h : node.FitsOutline) :
    ∀ row ∈ outlineRows 0 [node], '\n' ∉ row.label.toList := by
  intro row hrow
  simp only [outlineRows, preorders, List.append_nil, List.mem_map,
    Prod.exists] at hrow
  obtain ⟨depth, n, hn, rfl⟩ := hrow
  have hmem : n ∈ node.nodes := List.mem_map.mpr ⟨(depth, n), hn, rfl⟩
  cases hlabel : n.label? with
  | none => simp [outlineRow, hlabel]
  | some label =>
      simp only [outlineRow, hlabel, Option.getD_some]
      exact h n hmem label hlabel

/-- Trees have the same outline exactly if they have the same shape, with the
same kinds and the same tags, contents and expressions. -/
theorem outline_eq_iff {a b : Node} (ha : a.FitsOutline) (hb : b.FitsOutline) :
    a.outline = b.outline ↔ a.skeleton = b.skeleton := by
  constructor
  · intro houtline
    have hlines := congrArg String.toList houtline
    rw [toList_outline, toList_outline] at hlines
    have hrows := OutlineRow.cancel_lines ha.rows hb.rows hlines
    have hends : EndsBelow 0 [] := by simp [EndsBelow]
    obtain ⟨hskeletons, _⟩ :=
      cancel_outlineRows hends hends (congrArg (· ++ []) hrows)
    exact (List.cons.inj hskeletons).1
  · intro hskeleton
    have hskeletons : skeletons [a] = skeletons [b] := by
      rw [skeletons, skeletons, hskeleton]
      rfl
    apply String.toList_inj.mp
    rw [toList_outline, toList_outline, outlineRows_congr hskeletons]

theorem outline_eq_iff_dashes :
    let a := root [element "p" [⟨"id", "x", ⟨3, 9⟩⟩]
      [text "--Text: a" ⟨10, 19⟩ none, comment "" ⟨19, 26⟩ none] false
      ⟨0, 30⟩ none] ⟨0, 30⟩ none
    let b := root [element "p" []
      [text "--Text: a" ⟨3, 12⟩ none, comment "" ⟨12, 19⟩ none] true
      ⟨0, 23⟩ none] ⟨0, 23⟩ none
    a.FitsOutline ∧ b.FitsOutline ∧ a.outline = b.outline ∧
    a.skeleton = b.skeleton := by
  intro a b
  have ha : a.FitsOutline := by
    simp [a, FitsOutline, nodes, preorder, preorders, label?]
  have hb : b.FitsOutline := by
    simp [b, FitsOutline, nodes, preorder, preorders, label?]
  have houtline : a.outline = b.outline := rfl
  exact ⟨ha, hb, houtline, (outline_eq_iff ha hb).mp houtline⟩

end Node

end MarkupTemplate
