/-
ApiEmit.Proofs.ArenaOperations — operations, added as they are resolved in a graph.

An operation is resolved like a declaration, but its node is new, and its namespace lists it
(`addOperation_follows`). As the namespaces come in the order of the tree, the operations of the
arena are those of the graph in their order (`addAll_follows`).
-/
import ApiEmit.Proofs.ArenaFilled
import ApiEmit.Proofs.Resolved

namespace ApiEmit.Arena

variable {L : Legend} {g : Graph} {a : Arena}

/-! ## One operation, resolved -/

section

variable {place : Load.Place} {scope : NamespaceIndex}

theorem body_resolves (h : Represents L g a) (hp : At L g place scope) (b : Document.Body) :
    Resolves L g a (Loader.body scope place.context b) (Load.body place b) (ShowsBody L) :=
  (type_resolves h hp b.type).map fun _ _ _ ht => ⟨ht, rfl⟩

theorem parameter_resolves (h : Represents L g a) (hp : At L g place scope)
    (p : Document.Parameter) :
    Resolves L g a (Loader.parameter scope place.context p) (Load.parameter place p)
      (ShowsParameter L) :=
  (type_resolves h hp p.type).map fun _ _ _ ht => ⟨rfl, rfl, ht, rfl, rfl⟩

theorem response_resolves (h : Represents L g a) (hp : At L g place scope)
    (r : Document.Response) :
    Resolves L g a (Loader.response scope place.context r) (Load.response place r)
      (ShowsResponse L) := by
  have hstable : Stable L (ShowsBody L) := fun _ _ _ _ hk hb => hb.mono hk
  exact (Resolves.mapM hstable (fun b _ _ ha => body_resolves ha hp b) h).map
    fun _ _ _ hb => ⟨rfl, rfl, hb⟩

end

/-- A container is where an operation is declared. -/
structure Holds (L : Legend) (home : NamespaceId) (interface : Option String)
    (container : Container) : Prop where
  home : L.IsPlace home container.home
  interface : container.interface? = interface

theorem operation_resolves (h : Represents L g a) {home : NamespaceId}
    {interface : Option String} {container : Container} (hheld : Holds L home interface container)
    (op : Document.Operation) :
    Resolves L g a (Loader.operation container op)
      (Load.operation g.namespaces home interface op) fun types op shown =>
        ShowsOperation L types op shown ∧ shown.container = container := by
  obtain ⟨hhome, rfl⟩ := hheld
  have hp : At L g (Load.operationPlace g.namespaces home container.interface? op)
      container.home := ⟨rfl, hhome⟩
  have hparameters : Stable L (ShowsParameter L) := fun _ _ _ _ hk hq => hq.mono hk
  have hresponses : Stable L (ShowsResponse L) := fun _ _ _ _ hk hr => hr.mono hk
  unfold Loader.operation Load.operation
  refine Follows.ask (h.qualify?_eq hhome _) ?_
  change Resolves L g a _ _ fun types op shown =>
    ShowsOperation L types op shown ∧ shown.container = container
  refine Resolves.bind (Resolves.mapM hparameters
    (fun p _ _ ha => parameter_resolves ha hp p) h) fun parameters shownParameters a₁ h₁ _ hqs => ?_
  refine Resolves.bind (Resolves.optional (fun b _ => body_resolves h₁ hp b) h₁)
    fun payload shownBody a₂ h₂ hk₂ hbody => ?_
  refine Resolves.bind (Resolves.mapM hresponses
    (fun r _ _ ha => response_resolves ha hp r) h₂) fun responses shownResponses a₃ h₃ hk₃ hrs => ?_
  refine Resolves.pure h₃ ⟨?_, rfl⟩
  exact
    { name := rfl
      home := hhome
      interface := rfl
      verb := rfl
      path := rfl
      doc := rfl
      summary := rfl
      parameters := hqs.imp fun _ _ hq => hq.mono (hk₂.trans hk₃)
      body := Aligned.option_imp (fun _ _ hb => hb.mono hk₃) hbody
      responses := hrs }

/-! ## One operation, added -/

theorem positionsIn_append (operations : List ApiEmit.Operation) (op : ApiEmit.Operation)
    (id : NamespaceId) : positionsIn (operations ++ [op]) id =
      positionsIn operations id ++ if op.home = id then [⟨operations.length⟩] else [] := by
  unfold positionsIn
  rw [List.zipIdx_append, List.filter_append, List.map_append]
  congr 1
  by_cases h : op.home = id <;> simp [h]

/-- An operation is listed by its namespace and by no other. -/
theorem ShowsTree.addOperation {operations : List ApiEmit.Operation}
    {table : List ApiEmit.Namespace} {nodes : List Namespace}
    (h : ShowsTree L operations table nodes) {op : ApiEmit.Operation} {home : NamespaceIndex}
    (hhome : L.IsPlace op.home home) {node : Namespace}
    (hnode : nodes[home.position]? = some node) :
    ShowsTree L (operations ++ [op]) table (nodes.set home.position
      { node with operations := node.operations ++ [⟨operations.length⟩] }) := by
  have hlt : home.position < nodes.length := (List.getElem?_eq_some_iff.mp hnode).1
  refine
    { h with
      length_eq := by simpa using h.length_eq
      namespaces := fun i ns' node' hns' hnode' => ?_
      parent_lt := fun i node' outer hnode' houter => ?_ }
  · rcases eq_or_ne home.position i with rfl | hne
    · rw [List.getElem?_set_self hlt, Option.some.injEq] at hnode'
      have hid : op.home = ns'.id := Option.some.inj (hhome.symm.trans (h.isPlace_id hns'))
      have hshows := h.namespaces _ _ _ hns' hnode
      refine hnode' ▸ { hshows with operations := ?_ }
      rw [positionsIn_append, if_pos hid, hshows.operations]
    · rw [List.getElem?_set_ne hne] at hnode'
      have hid : op.home ≠ ns'.id := fun heq => hne <|
        congrArg NamespaceIndex.position (h.isPlace_inj hhome (heq ▸ h.isPlace_id hns'))
      have hshows := h.namespaces _ _ _ hns' hnode'
      refine { hshows with operations := ?_ }
      rw [positionsIn_append, if_neg hid, List.append_nil, hshows.operations]
  · rcases eq_or_ne home.position i with rfl | hne
    · rw [List.getElem?_set_self hlt, Option.some.injEq] at hnode'
      rw [← hnode'] at houter
      exact h.parent_lt _ node outer hnode houter
    · rw [List.getElem?_set_ne hne] at hnode'
      exact h.parent_lt i node' outer hnode' houter

/-- The graph with one operation more. -/
theorem Represents.addOperation (h : Represents L g a) {op : ApiEmit.Operation}
    {shown : Operation} (hop : ShowsOperation L a.types op shown) {node : Namespace}
    (hnode : a.namespace? shown.container.home = some node) :
    Represents L { g with operations := g.operations ++ [op] }
      { a with
        operations := a.operations ++ [shown]
        namespaces := a.namespaces.set shown.container.home.position
          { node with operations := node.operations ++ [⟨a.operations.length⟩] } } := by
  have htree := h.toShowsTree.addOperation hop.home hnode
  rw [h.operations.length_eq] at htree
  exact
    { h with
      toShowsTree := htree
      operations := List.rel_append h.operations (.cons hop .nil) }

theorem addOperation_follows (h : Represents L g a) {home : NamespaceId}
    {interface : Option String} {container : Container} (hheld : Holds L home interface container)
    (op : Document.Operation) :
    Follows (Loader.addOperation container op) a
      (Load.operation g.namespaces home interface op) fun op _ a' =>
        Represents L { g with operations := g.operations ++ [op] } a' := by
  unfold Loader.addOperation
  rw [← bind_pure (x := Load.operation g.namespaces home interface op)]
  refine Follows.bind (operation_resolves h hheld op) fun op' shown a₁ hpost => ?_
  obtain ⟨h₁, _, hop, rfl⟩ := hpost
  obtain ⟨_, node, _, _, hnode, _⟩ := h₁.exists_namespace hop.home
  refine Follows.silent rfl ?_
  have hnode' : ({ a₁ with operations := a₁.operations ++ [shown] } : Arena).namespace?
      shown.container.home = some node := hnode
  exact ⟨(), _, Loader.update_eq hnode' _, h₁.addOperation hop hnode⟩

/-! ## All operations -/

/-- The operations of a namespace, each with its container. -/
def contained (entry : Document.Namespace × NamespaceIndex) :
    List (Container × Document.Operation) :=
  entry.1.operations.map (.namespace entry.2, ·) ++
    entry.1.interfaces.flatMap fun i => i.operations.map (.interface entry.2 i.name, ·)

theorem forM_flatMap {α β : Type} (f : β → Loader Unit) (part : α → List β) (entries : List α) :
    (entries.flatMap part).forM f = entries.forM fun entry => (part entry).forM f := by
  induction entries with
  | nil => rfl
  | cons entry rest ih =>
    simp only [List.forM_eq_forM] at ih ⊢
    rw [List.flatMap_cons, List.forM_append, List.forM_cons, ih]

theorem addOperations_eq (entry : Document.Namespace × NamespaceIndex) :
    Loader.addOperations entry =
      (contained entry).forM fun held => Loader.addOperation held.1 held.2 := by
  have hgrouped := forM_flatMap (fun held => Loader.addOperation held.1 held.2)
    (fun i : Document.Interface => i.operations.map (Container.interface entry.2 i.name, ·))
    entry.1.interfaces
  unfold Loader.addOperations contained
  simp only [List.forM_eq_forM] at hgrouped ⊢
  rw [List.forM_append, List.forM_map, hgrouped]
  simp only [List.forM_map]

/-- An operation with its container is one that the graph has to resolve. -/
structure IsHeld (L : Legend) (entry : NamespaceId × Option String × Document.Operation)
    (held : Container × Document.Operation) : Prop where
  container : Holds L entry.1 entry.2.1 held.1
  operation : held.2 = entry.2.2

/-- The operations of a namespace are those of its site. -/
theorem contained_isHeld {s : Load.Site} {entry : Document.Namespace × NamespaceIndex}
    (h : entry.1 = s.content ∧ L.IsPlace s.id entry.2) :
    List.Forall₂ (IsHeld L) s.operations (contained entry) := by
  obtain ⟨content, home⟩ := entry
  obtain ⟨rfl, hhome⟩ := h
  unfold Load.Site.operations contained
  refine List.rel_append ?_ ?_
  · rw [List.forall₂_map_left_iff, List.forall₂_map_right_iff, List.forall₂_same]
    exact fun op _ => ⟨⟨hhome, rfl⟩, rfl⟩
  · have hsame : List.Forall₂ (· = ·) s.content.interfaces s.content.interfaces :=
      List.forall₂_same.mpr fun _ _ => rfl
    refine List.rel_flatMap hsame ?_
    rintro i _ rfl
    rw [List.forall₂_map_left_iff, List.forall₂_map_right_iff, List.forall₂_same]
    exact fun op _ => ⟨⟨hhome, rfl⟩, rfl⟩

/-- The operations that are left are added one by one. -/
theorem addHeld_follows (h : Represents L g a)
    {entries : List (NamespaceId × Option String × Document.Operation)}
    {held : List (Container × Document.Operation)}
    (hheld : List.Forall₂ (IsHeld L) entries held) :
    Follows (held.forM fun entry => Loader.addOperation entry.1 entry.2) a
      (entries.mapM fun (home, interface, op) => Load.operation g.namespaces home interface op)
      fun operations _ a' =>
        Represents L { g with operations := g.operations ++ operations } a' := by
  induction hheld generalizing g a with
  | nil =>
    refine Follows.pure ?_
    simpa using h
  | @cons entry held entries rest hfirst _ ih =>
    obtain ⟨home, interface, op⟩ := entry
    obtain ⟨container, op'⟩ := held
    obtain ⟨hcontainer, rfl⟩ := hfirst
    rw [List.mapM_cons, List.forM_eq_forM, List.forM_cons]
    refine Follows.bind (addOperation_follows h hcontainer _) fun op _ a' ha' => ?_
    refine Follows.map_result ((ih ha').imp fun operations _ a'' ha'' => ?_)
    rwa [List.append_assoc, List.singleton_append] at ha''

/-- **The operations of an arena are those of the graph.** -/
theorem addAll_follows (h : Represents L g a) (hnone : g.operations = [])
    {all : List Load.Site} {pending : List (Document.Namespace × NamespaceIndex)}
    (hpending : List.Forall₂ (fun (s : Load.Site) entry => entry.1 = s.content ∧
      L.IsPlace s.id entry.2) all pending) :
    Follows (pending.forM Loader.addOperations) a
      ((all.flatMap (·.operations)).mapM fun (home, interface, op) =>
        Load.operation g.namespaces home interface op)
      fun operations _ a' => Represents L { g with operations } a' := by
  have hheld := List.rel_flatMap hpending fun _ _ hs => contained_isHeld hs
  have hsteps : pending.forM Loader.addOperations =
      (pending.flatMap contained).forM fun held => Loader.addOperation held.1 held.2 := by
    rw [forM_flatMap]
    exact congrArg _ (funext addOperations_eq)
  rw [hsteps]
  refine (addHeld_follows h hheld).imp fun operations _ a' ha' => ?_
  rwa [hnone] at ha'

end ApiEmit.Arena
