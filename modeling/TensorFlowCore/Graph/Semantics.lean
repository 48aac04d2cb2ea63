import TensorFlowCore.Graph.Algorithm

/-!
# What the nodes of a graph compute

An interpretation says what an op computes: a stateless one a function of its attributes and its
inputs, a stateful one whatever its node computes. Unless a node feeds itself there is then at most
one way to give every node its values (`IsValuation.eq`).
-/

namespace TensorFlowCore

namespace Graph

open Relation

/-- What ops compute, for each number of an output. -/
structure Interpretation (V α : Type) where
  stateless : ByteString → α → List (Option V) → ℤ → V
  stateful : ℕ → List (Option V) → ℤ → V

variable {V α : Type} {I : Interpretation V α} {g : Graph α} {val val' : ℕ → ℤ → V} {id : ℕ}

/-- What a node computes from its inputs. -/
def Interpretation.compute (I : Interpretation V α) (id : ℕ) (node : Node α)
    (inputs : List (Option V)) (o : ℤ) : V :=
  if node.opDef.isStateful then I.stateful id inputs o
  else I.stateless node.nodeDef.op node.nodeDef.attr inputs o

/-- The edge that feeds an input of a node. -/
def inputEdge (g : Graph α) (id i : ℕ) : Option Edge := (g.inEdges id).find? (isDataAt i)

/-- The values at the inputs of a node. -/
def inputValues (g : Graph α) (val : ℕ → ℤ → V) (id : ℕ) (node : Node α) : List (Option V) :=
  (List.range node.numInputs).map fun i ↦ (g.inputEdge id i).map fun e ↦ val e.src e.srcOutput

/-- Every node computes its values from the values at its inputs. -/
def IsValuation (I : Interpretation V α) (g : Graph α) (val : ℕ → ℤ → V) : Prop :=
  ∀ id node, g.findNodeId id = some node → ∀ o,
    val id o = I.compute id node (g.inputValues val id node) o

/-- One edge feeds the input of the node. -/
def FedOnce (g : Graph α) (id i : ℕ) : Prop := ((g.inEdges id).filter (isDataAt i)).length = 1

/-- Edges are between nodes of the graph, every input is fed by one edge, and a data edge feeds an
input that exists. -/
structure Wired (g : Graph α) : Prop where
  edgesExist : g.EdgesExist
  fedOnce : ∀ {id node}, g.findNodeId id = some node → ∀ i < node.numInputs, g.FedOnce id i
  inRange : ∀ e ∈ g.edges, e.isControlEdge = false → ∀ {node}, g.findNodeId e.dst = some node →
    0 ≤ e.dstInput ∧ e.dstInput < node.numInputs

theorem FedOnce.inputEdge_eq {i : ℕ} {e : Edge} (h : (g.inEdges id).filter (isDataAt i) = [e]) :
    g.inputEdge id i = some e := by
  rw [inputEdge, ← List.head?_filter, h]
  rfl

/-- An input fed by one edge. -/
theorem FedOnce.exists_inputEdge {i : ℕ} (h : g.FedOnce id i) :
    ∃ e, (g.inEdges id).filter (isDataAt i) = [e] ∧ g.inputEdge id i = some e := by
  obtain ⟨e, he⟩ := List.length_eq_one_iff.1 h
  exact ⟨e, he, inputEdge_eq he⟩

/-- A data edge leads from one node to another. -/
def Feeds (g : Graph α) (a b : ℕ) : Prop :=
  ∃ e ∈ g.edges, e.isControlEdge = false ∧ e.src = a ∧ e.dst = b

/-- The values at the inputs depend on the nodes that feed them. -/
theorem inputValues_congr {node : Node α} (h : ∀ a, g.Feeds a id → ∀ o, val a o = val' a o) :
    g.inputValues val id node = g.inputValues val' id node := by
  refine List.map_congr_left fun i _ ↦ ?_
  cases hedge : g.inputEdge id i with
  | none => rfl
  | some e =>
    obtain ⟨he, hdst, hdata, -⟩ := mem_of_find? hedge
    exact congrArg some (h e.src ⟨e, he, hdata, rfl, hdst⟩ e.srcOutput)

/-- A relation between finitely many ids that has no cycle is well-founded. -/
theorem wellFounded_of_acyclic {r : ℕ → ℕ → Prop} {n : ℕ} (hlt : ∀ {a b}, r a b → a < n ∧ b < n)
    (hacyclic : ∀ a, ¬TransGen r a a) : WellFounded r := by
  let r' : Fin n → Fin n → Prop := fun a b ↦ TransGen r a b
  have : IsTrans _ r' := ⟨fun _ _ _ hab hbc ↦ TransGen.trans hab hbc⟩
  have : Std.Irrefl r' := ⟨fun a ↦ hacyclic a⟩
  have hwf : WellFounded r' := Finite.wellFounded_of_trans_of_irrefl r'
  have hacc : ∀ a : Fin n, Acc r a := by
    intro a
    induction a using hwf.induction with
    | _ a ih =>
      refine ⟨_, fun b hb ↦ ?_⟩
      exact ih ⟨b, (hlt hb).1⟩ (.single hb)
  refine ⟨fun a ↦ ⟨_, fun b hb ↦ ?_⟩⟩
  exact hacc ⟨b, (hlt hb).1⟩

theorem wellFounded_adjacent (hedges : g.EdgesExist) (hacyclic : g.Acyclic) :
    WellFounded g.Adjacent := by
  refine wellFounded_of_acyclic (n := g.numNodeIds) ?_ hacyclic
  rintro a b ⟨e, he, rfl, rfl⟩
  exact ⟨lt_of_isSome (hedges e he).1, lt_of_isSome (hedges e he).2⟩

theorem wellFounded_feeds (hedges : g.EdgesExist) (hacyclic : g.Acyclic) : WellFounded g.Feeds :=
  Subrelation.wf (fun ⟨e, he, _, hsrc, hdst⟩ ↦ ⟨e, he, hsrc, hdst⟩)
    (wellFounded_adjacent hedges hacyclic)

/-- A graph in which no node feeds itself has at most one valuation. -/
theorem IsValuation.eq (hedges : g.EdgesExist) (hwf : WellFounded g.Feeds) (h : IsValuation I g val)
    (h' : IsValuation I g val') (hid : (g.findNodeId id).isSome = true) (o : ℤ) :
    val id o = val' id o := by
  induction id using hwf.induction generalizing o with
  | _ id ih =>
    obtain ⟨node, hnode⟩ := Option.isSome_iff_exists.1 hid
    have hinputs : g.inputValues val id node = g.inputValues val' id node :=
      inputValues_congr fun a ha o ↦ by
        obtain ⟨e, he, hdata, rfl, hdst⟩ := ha
        exact ih e.src ⟨e, he, hdata, rfl, hdst⟩ (hedges e he).1 o
    rw [h id node hnode, h' id node hnode, hinputs]

end Graph

end TensorFlowCore
