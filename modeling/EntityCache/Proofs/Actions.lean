import EntityCache.Cache.Action
import Mathlib.Order.Defs.Unbundled

/-! How actions run: the outcome of each building block, and how a property of the cache
and a relation to the cache before are carried through sequences and loops, which stop at
the first fault. -/
namespace EntityCache.Action

variable {α β : Type}

section On

@[simp] theorem on_pure (x : α) (c : Cache) : (pure x : Action α).on c = (.ok x, c) := rfl

@[simp] theorem on_throw (fault : Fault) (c : Cache) :
    (throw fault : Action α).on c = (.error fault, c) := rfl

@[simp] theorem on_get (c : Cache) : (get : Action Cache).on c = (.ok c, c) := rfl

@[simp] theorem on_modify (f : Cache → Cache) (c : Cache) :
    (modify f : Action PUnit).on c = (.ok ⟨⟩, f c) := rfl

@[simp] theorem on_lift (x : Except Fault α) (c : Cache) :
    (liftM x : Action α).on c = (x, c) := by cases x <;> rfl

theorem on_bind (a : Action α) (f : α → Action β) (c : Cache) :
    (a >>= f).on c = match a.on c with
      | (.ok x, c') => (f x).on c'
      | (.error fault, c') => (.error fault, c') := by
  unfold Action.on
  simp only [ExceptT.run_bind, StateT.run_bind]
  cases h : StateT.run (ExceptT.run a) c with
  | mk r c' => cases r <;> rfl

theorem on_bind_ok {a : Action α} {c c' : Cache} {x : α} (h : a.on c = (.ok x, c'))
    (f : α → Action β) : (a >>= f).on c = (f x).on c' := by rw [on_bind, h]

theorem on_bind_error {a : Action α} {c c' : Cache} {fault : Fault}
    (h : a.on c = (.error fault, c')) (f : α → Action β) :
    (a >>= f).on c = (.error fault, c') := by rw [on_bind, h]

@[simp] theorem on_map (f : α → β) (a : Action α) (c : Cache) :
    (f <$> a).on c = ((a.on c).1.map f, (a.on c).2) := by
  rw [← bind_pure_comp, on_bind]
  cases h : a.on c with
  | mk r c' => cases r <;> rfl

@[simp] theorem on_discard (a : Action α) (c : Cache) :
    (discard a : Action PUnit).on c = ((a.on c).1.map fun _ => ⟨⟩, (a.on c).2) := on_map _ a c

end On

section Keeps

variable {P : Cache → Prop} {R : Cache → Cache → Prop}

/-- Whatever comes of the action here, the cache after it has the property, and is in the
relation to the cache before. -/
structure KeepsAt (P : Cache → Prop) (R : Cache → Cache → Prop) (a : Action α) (c : Cache) :
    Prop where
  holds : P (a.on c).2
  related : R c (a.on c).2

def Keeps (P : Cache → Prop) (R : Cache → Cache → Prop) (a : Action α) : Prop :=
  ∀ c, P c → a.KeepsAt P R c

theorem KeepsAt.of_on {a : Action α} {c c' : Cache} {r : Except Fault α} (h : a.on c = (r, c'))
    (hp : P c') (hr : R c c') : a.KeepsAt P R c := ⟨by rwa [h], by rwa [h]⟩

theorem KeepsAt.discard {a : Action α} {c : Cache} (ha : a.KeepsAt P R c) :
    (discard a : Action PUnit).KeepsAt P R c := .of_on (on_discard a c) ha.holds ha.related

theorem Keeps.discard {a : Action α} (ha : a.Keeps P R) :
    (discard a : Action PUnit).Keeps P R := fun c hc => (ha c hc).discard

theorem KeepsAt.bind_of_ok {a : Action α} {f : α → Action β} {c : Cache} {x : α}
    (h : a.on c = (.ok x, c)) (hf : (f x).KeepsAt P R c) : (a >>= f).KeepsAt P R c :=
  .of_on (on_bind_ok h f) hf.holds hf.related

/-- What follows may go by the cache that was read. -/
theorem Keeps.get_bind {f : Cache → Action α} (hf : ∀ c, P c → (f c).KeepsAt P R c) :
    ((get : Action Cache) >>= f).Keeps P R := fun c hc => .bind_of_ok (on_get c) (hf c hc)

variable [IsPreorder Cache R]

theorem KeepsAt.of_unmoved {a : Action α} {c : Cache} {r : Except Fault α}
    (h : a.on c = (r, c)) (hc : P c) : a.KeepsAt P R c := .of_on h hc (Std.Refl.refl c)

theorem Keeps.pure (x : α) : (pure x : Action α).Keeps P R := fun c => .of_unmoved (on_pure x c)

theorem Keeps.throw (fault : Fault) : (throw fault : Action α).Keeps P R :=
  fun c => .of_unmoved (on_throw fault c)

theorem KeepsAt.bind_at {a : Action α} {f : α → Action β} {c : Cache} (ha : a.KeepsAt P R c)
    (hf : ∀ x c', a.on c = (.ok x, c') → P c' → (f x).KeepsAt P R c') :
    (a >>= f).KeepsAt P R c := by
  obtain ⟨hp, hr⟩ := ha
  cases h : a.on c with
  | mk r c' =>
    rw [h] at hp hr
    cases r with
    | error fault => exact .of_on (on_bind_error h f) hp hr
    | ok x =>
      have hx := hf x c' h hp
      exact .of_on (on_bind_ok h f) hx.holds (IsTrans.trans _ _ _ hr hx.related)

theorem KeepsAt.bind {a : Action α} {f : α → Action β} {c : Cache} (ha : a.KeepsAt P R c)
    (hf : ∀ x, (f x).Keeps P R) : (a >>= f).KeepsAt P R c := ha.bind_at fun x c' _ => hf x c'

theorem Keeps.bind {a : Action α} {f : α → Action β} (ha : a.Keeps P R)
    (hf : ∀ x, (f x).Keeps P R) : (a >>= f).Keeps P R := fun c hc => (ha c hc).bind hf

theorem KeepsAt.lift_bind {x : Except Fault α} {f : α → Action β} {c : Cache} (hc : P c)
    (hf : ∀ a, x = .ok a → (f a).KeepsAt P R c) :
    ((liftM x : Action α) >>= f).KeepsAt P R c := by
  cases x with
  | error fault => exact .of_unmoved (on_bind_error (on_lift _ c) f) hc
  | ok a => exact .bind_of_ok (on_lift _ c) (hf a rfl)

theorem Keeps.forM {f : α → Action PUnit} {xs : List α} (hf : ∀ x ∈ xs, (f x).Keeps P R) :
    (xs.forM f).Keeps P R := by
  induction xs with
  | nil => exact Keeps.pure ()
  | cons x xs ih =>
    have hrest := ih fun y hy => hf y (List.mem_cons_of_mem x hy)
    exact Keeps.bind (hf x List.mem_cons_self) fun _ => hrest

end Keeps

end EntityCache.Action
