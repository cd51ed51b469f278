/-
ApiEmit.Proofs.ArenaSteps — steps that go along with a computation.

Loading an arena and loading a graph go side by side. `Follows` says that a step refuses the
document with the error that the computation gives, and that it goes through, and leaves what is
asked for, when the computation has a result. No step that follows a computation runs out of the
bounds of the arena.
-/
import ApiEmit.Arena.Load
import Mathlib.Data.List.Basic

namespace ApiEmit.Arena

/-- A step does in an arena what a computation does: it gives the same error, or else a value and an
arena that stand to the result as they should. -/
def Follows {α β : Type} (step : Loader α) (a : Arena) (result : Except LoadError β)
    (post : β → α → Arena → Prop) : Prop :=
  match result with
  | .error e => step a = .error (.refused e)
  | .ok b => ∃ x a', step a = .ok (x, a') ∧ post b x a'

/-! ## Single steps -/

namespace Loader

variable {a : Arena} {home : NamespaceIndex} {node : Namespace}

theorem bind_apply {α γ : Type} (step : Loader α) (next : α → Loader γ) (a : Arena) :
    (step >>= next) a = (step a).bind fun entry => next entry.1 entry.2 :=
  rfl

theorem modify_eq_set {α : Type} {xs : List α} {k : Nat} {x : α} (h : xs[k]? = some x)
    (f : α → α) : xs.modify k f = xs.set k (f x) := by
  rw [List.modify_eq_set_getElem?, h]
  rfl

theorem update_eq (hnode : a.namespace? home = some node) (change : Namespace → Namespace) :
    update home change a =
      .ok ((), { a with namespaces := a.namespaces.set home.position (change node) }) := by
  rw [update, if_pos (List.getElem?_eq_some_iff.mp hnode).1, modify_eq_set hnode]

theorem addNamespace_eq (hnode : a.namespace? home = some node) (name : String) :
    addNamespace name home a = .ok (⟨a.namespaces.length⟩,
      { a with
        namespaces := (a.namespaces ++ [({ name, parent := some home } : Namespace)]).set
          home.position { node with children := node.children ++ [⟨a.namespaces.length⟩] } }) := by
  have hlt : home.position < a.namespaces.length := (List.getElem?_eq_some_iff.mp hnode).1
  have hnode' : ({ a with namespaces := a.namespaces ++ [{ name, parent := some home }] }
      : Arena).namespace? home = some node := (List.getElem?_append_left hlt).trans hnode
  unfold addNamespace
  rw [bind_apply]
  change ((update home _ >>= fun _ => Pure.pure _) _) = _
  rw [bind_apply, update_eq hnode']
  rfl

end Loader

/-! ## Steps one after the other -/

namespace Follows

variable {α β γ δ : Type} {a a' : Arena} {step : Loader α} {result : Except LoadError β}
  {post : β → α → Arena → Prop}

theorem pure {x : α} {b : β} (h : post b x a) : Follows (Pure.pure x) a (.ok b) post :=
  ⟨x, a, rfl, h⟩

theorem refuse (e : LoadError) : Follows (Loader.refuse e : Loader α) a (.error e) post :=
  rfl

theorem imp {post' : β → α → Arena → Prop} (h : Follows step a result post)
    (himp : ∀ b x a', post b x a' → post' b x a') : Follows step a result post' := by
  cases result with
  | error e => exact h
  | ok b =>
    obtain ⟨x, a', hstep, hpost⟩ := h
    exact ⟨x, a', hstep, himp b x a' hpost⟩

/-- Steps one after the other follow computations one after the other. -/
theorem bind {next : α → Loader γ} {next' : β → Except LoadError δ} {post' : δ → γ → Arena → Prop}
    (h : Follows step a result post)
    (hnext : ∀ b x a', post b x a' → Follows (next x) a' (next' b) post') :
    Follows (step >>= next) a (result >>= next') post' := by
  cases result with
  | error e =>
    have hstep : step a = .error (.refused e) := h
    change (step >>= next) a = _
    rw [Loader.bind_apply, hstep]
    rfl
  | ok b =>
    obtain ⟨x, a', hstep, hpost⟩ := h
    have hrest : Follows (next x) a' (next' b) post' := hnext b x a' hpost
    have hbind : (step >>= next) a = next x a' := by
      rw [Loader.bind_apply, hstep]
      rfl
    change Follows (step >>= next) a (next' b) post'
    unfold Follows at hrest ⊢
    rw [hbind]
    exact hrest

/-- A value that is made from the result of a computation. -/
theorem map_result {f : β → δ} {post' : δ → α → Arena → Prop}
    (h : Follows step a result fun b => post' (f b)) :
    Follows step a (result >>= fun b => .ok (f b)) post' := by
  cases result with
  | error e => exact h
  | ok b => exact h

/-- A value that is made from what a step gives. -/
theorem map_left {f : α → γ} {post' : β → γ → Arena → Prop} (h : Follows step a result post)
    (hpost : ∀ b x a', post b x a' → post' b (f x) a') :
    Follows (step >>= fun x => Pure.pure (f x)) a result post' := by
  rw [← bind_pure (x := result)]
  exact h.bind fun b x a' hx => Follows.pure (hpost b x a' hx)

/-- A step that nothing is computed for. -/
theorem silent {next : α → Loader γ} {x : α} {post' : β → γ → Arena → Prop}
    (h : step a = .ok (x, a')) (hnext : Follows (next x) a' result post') :
    Follows (step >>= next) a result post' := by
  have hbind : (step >>= next) a = next x a' := by
    rw [Loader.bind_apply, h]
    rfl
  unfold Follows at hnext ⊢
  rw [hbind]
  exact hnext

/-- A question that the arena has an answer to. -/
theorem ask {next : α → Loader γ} {question : Arena → Option α} {x : α}
    {post' : β → γ → Arena → Prop} (h : question a = some x)
    (hnext : Follows (next x) a result post') :
    Follows (Loader.ask question >>= next) a result post' := by
  refine silent ?_ hnext
  rw [Loader.ask, h]

end Follows

end ApiEmit.Arena
