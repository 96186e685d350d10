import Quire.Fault
/-!
# Actions

Operations on a state that may fail, and the parts of a state that an operation works on. The
effects an action had on the state remain when it fails.
-/
namespace Quire

/-- An operation on a state that may fail. Its effects on the state remain when it fails. -/
abbrev Action (σ α : Type) := ExceptT Fault (StateM σ) α

namespace Action

variable {σ τ α : Type}

/-- The outcome of an action and the state after it. -/
def runOn (a : Action σ α) (s : σ) : Except Fault α × σ := StateT.run (ExceptT.run a) s

/-- The action with the given outcomes. -/
def ofFun (f : σ → Except Fault α × σ) : Action σ α := ExceptT.mk fun s => f s

/-- An action that only reads the state. -/
def ofRead (f : σ → Except Fault α) : Action σ α := ofFun fun s => (f s, s)

/-- A step that cannot fail. -/
def ofStep (f : σ → α × σ) : Action σ α := ofFun fun s => let (a, t) := f s; (.ok a, t)

/-- An outcome that does not depend on the state. -/
def ofExcept (r : Except Fault α) : Action σ α := ofRead fun _ => r

/-- Fails. -/
def fail (f : Fault) : Action σ α := ofFun fun s => (.error f, s)

/-- The outcome of an action as a value, so that the action itself cannot fail. -/
def attempt (a : Action σ α) : Action σ (Except Fault α) :=
  ofFun fun s => let (r, t) := a.runOn s; (.ok r, t)

@[simp] theorem runOn_ofFun (f : σ → Except Fault α × σ) (s : σ) : (ofFun f).runOn s = f s := rfl

@[simp] theorem runOn_ofExcept (r : Except Fault α) (s : σ) : (ofExcept r).runOn s = (r, s) := rfl

@[simp] theorem runOn_pure (a : α) (s : σ) : runOn (pure a : Action σ α) s = (.ok a, s) := rfl

@[simp] theorem runOn_fail (f : Fault) (s : σ) :
    runOn (fail f : Action σ α) s = (.error f, s) := rfl

theorem runOn_bind {β : Type} (a : Action σ α) (k : α → Action σ β) (s : σ) :
    runOn (a >>= k) s =
      match a.runOn s with
      | (.ok x, t) => (k x).runOn t
      | (.error f, t) => (.error f, t) := by
  show runOn (ExceptT.mk (StateT.bind a (ExceptT.bindCont k))) s = _
  simp only [runOn, ExceptT.run, ExceptT.mk, StateT.run, StateT.bind, bind, Id]
  rcases h : a s with ⟨r, t⟩
  cases r <;> rfl

theorem runOn_map {β : Type} (g : α → β) (a : Action σ α) (s : σ) :
    runOn (g <$> a) s = ((a.runOn s).1.map g, (a.runOn s).2) := by
  rw [map_eq_pure_bind, runOn_bind]
  rcases a.runOn s with ⟨f | x, t⟩ <;> rfl

end Action

/-- A part of a state: how to read it and how to replace it. -/
structure Part (σ τ : Type) where
  get : σ → τ
  set : τ → σ → σ

namespace Part

variable {σ τ υ α : Type}

/-- The whole state. -/
def whole : Part σ σ := ⟨id, fun t _ => t⟩

/-- The first of two parts. -/
def fst : Part (σ × τ) σ := ⟨Prod.fst, fun a p => (a, p.2)⟩

/-- The second of two parts. -/
def snd : Part (σ × τ) τ := ⟨Prod.snd, fun b p => (p.1, b)⟩

/-- A part of a part. -/
def comp (p : Part σ τ) (q : Part τ υ) : Part σ υ :=
  ⟨fun s => q.get (p.get s), fun u s => p.set (q.set u (p.get s)) s⟩

/-- Two parts side by side. -/
def pair (p : Part σ τ) (q : Part σ υ) : Part σ (τ × υ) :=
  ⟨fun s => (p.get s, q.get s), fun v s => q.set v.2 (p.set v.1 s)⟩

/-- A place in a list. Beyond the end there is a default, and nothing to replace. -/
def nth [Inhabited α] (i : Nat) : Part (List α) α :=
  ⟨fun l => l.getD i default, fun a l => l.set i a⟩

/-- An action on a part, as an action on the whole. -/
def lift (p : Part σ τ) (a : Action τ α) : Action σ α :=
  Action.ofFun fun s => let (r, t) := a.runOn (p.get s); (r, p.set t s)

/-- Changes a part. -/
def modify (p : Part σ τ) (f : τ → τ) : Action σ Unit := p.lift (Action.ofStep fun t => ((), f t))

end Part
end Quire
