import Nessus.Register.Linear

/-!
# Stale ids

An id is made from the address of the instance, and an address is used again once the instance is gone.

* `NoStale` — an id that a create returned means the instance of that create until it is released, and nothing after;
* `registry_noStale` — so it is in every run in which no two registered instances have the same address;
* `not_noStale_reuse` — a run in which the second instance gets the address of the first one: a client with the old id
  reaches the new instance.
-/

namespace Nessus.Register

open Nessus.Lib Nessus.Abi

variable {env : Env}

/-- A step in which an execute or a lookup resolves the id. -/
def Resolves (c : ℕ) (g : Guid) (r : Option ℕ) (l : Label) : Prop := l = .find c g r ∨ l = .lookup c g r

/-- **No id is stale**: what an id resolves to after the create `c` has inserted the instance `i` at the address `a`. -/
structure NoStale (env : Env) (t : List Label) (s : State) : Prop where
  /-- Until the id is released, it resolves to the instance that this create has made. -/
  resolves : ∀ t₁ c a i t₂ l t₃ c' r, t = t₁ ++ .insert c a i :: (t₂ ++ l :: t₃) → Resolves c' (env.id a) r l →
    (∀ c'', .erase c'' (env.id a) ∉ t₂) → r = some i
  /-- Once it has been released, it resolves to nothing, and an execute reports key-not-found. -/
  gone : ∀ t₁ c a i t₂ l t₃ c' r, t = t₁ ++ .insert c a i :: (t₂ ++ l :: t₃) → Resolves c' (env.id a) r l →
    (∃ c'', .erase c'' (env.id a) ∈ t₂) →
    r = none ∧ (l = .find c' (env.id a) r → s.calls[c']? = some (.done (.thrown env.keyNotFound)))

/-- The address of the instance that a step inserts. -/
def Label.insertedAddress : Label → Option UInt64
  | insert _ a _ => some a
  | _ => none

/-- No two instances that are registered in the run have the same address. -/
def FreshAddresses (t : List Label) : Prop := (t.filterMap Label.insertedAddress).Nodup

theorem Env.id_injective (hinj : Function.Injective env.createGuidFromBytes) : Function.Injective env.id :=
  hinj.comp toArray_injective

theorem filterMap_insertedId (env : Env) (t : List Label) :
    t.filterMap (·.insertedId env) = (t.filterMap Label.insertedAddress).map env.id := by
  rw [List.map_filterMap]
  congr 1
  funext l
  cases l <;> rfl

theorem FreshAddresses.freshIds {t : List Label} (hinj : Function.Injective env.createGuidFromBytes)
    (h : FreshAddresses t) : FreshIds env t := by
  unfold FreshIds
  rw [filterMap_insertedId]
  exact h.map (Env.id_injective hinj)

theorem Resolves.reads {c : ℕ} {g : Guid} {r : Option ℕ} {l : Label} (h : Resolves c g r l) {u u' : State}
    (hs : Steps env u l u') : r = u.map.lookup g := by
  rcases h with rfl | rfl
  · exact find_reads hs
  · exact lookup_reads hs

/-- **No id is stale** in any run in which no two registered instances have the same address. -/
theorem registry_noStale (env : Env) (hinj : Function.Injective env.createGuidFromBytes) (t : List Label) (s : State)
    (hfresh : FreshAddresses t) (hrun : (registry env).run t = some s) : NoStale env t s := by
  have hids := hfresh.freshIds hinj
  -- what an id resolves to is what is registered under it at that moment
  have hfound {t₁ t₂ t₃ : List Label} {x l : Label} {c : ℕ} {g : Guid} {r : Option ℕ}
      (ht : t = t₁ ++ x :: (t₂ ++ l :: t₃)) (hl : Resolves c g r l) (j : ℕ) :
      r = some j ↔ Registered env (t₁ ++ x :: t₂) g j := by
    have ht' : t = (t₁ ++ x :: t₂) ++ l :: t₃ := by rw [ht]; simp
    exact found_iff hids hrun ht' (fun _ _ => hl.reads) j
  constructor
  · intro t₁ c a i t₂ l t₃ c' r ht hl hno
    refine (hfound ht hl i).2 ⟨t₁, _, t₂, rfl, ⟨c, a, rfl, rfl⟩, ?_⟩
    rintro y hy ⟨c'', rfl⟩
    exact hno c'' hy
  · rintro t₁ c a i t₂ l t₃ c' r ht hl ⟨c'', herase⟩
    have hnone : r = none := by
      rw [Option.eq_none_iff_forall_ne_some]
      intro j hj
      -- the id has been inserted once only, and that was before the erase
      obtain ⟨v₁, x, v₂, hv, hx, hno⟩ := (hfound ht hl j).1 hj
      have hpre : FreshIds env (t₁ ++ .insert c a i :: t₂) := by
        refine FreshIds.of_append (u := l :: t₃) ?_
        rw [ht] at hids
        simpa using hids
      obtain ⟨-, -, rfl⟩ := split_unique hpre rfl hv rfl hx.insertedId
      exact hno _ herase ⟨c'', rfl⟩
    refine ⟨hnone, ?_⟩
    rintro rfl
    subst hnone
    have hmem : .find c' (env.id a) none ∈ t := by rw [ht]; simp
    exact ((registry_story env t s hrun).notFound hmem).1

theorem Env.plain_injective : Function.Injective Env.plain.createGuidFromBytes := fun _ _ h => (Guid.mk.inj h).2.2.2

theorem releaseDuringExecute_noStale :
    ∃ s, (registry Env.plain).run releaseDuringExecute = some s ∧ NoStale Env.plain releaseDuringExecute s := by
  have hfresh : FreshAddresses releaseDuringExecute := by
    unfold FreshAddresses
    decide
  have hrun : ((registry Env.plain).run releaseDuringExecute).isSome := by decide
  obtain ⟨s, hs⟩ := Option.isSome_iff_exists.1 hrun
  exact ⟨s, hs, registry_noStale Env.plain Env.plain_injective _ s hfresh hs⟩

/-- The first instance is released, the second one gets its address, and a third client still has the old id. -/
def reuse : List Label :=
  [.callCreate "A" "", .factory 0 (.made 8), .init 0 none, .insert 0 8 0, .leave 0,
    .callRelease (Env.plain.id 8), .erase 1 (Env.plain.id 8),
    .callCreate "B" "", .factory 2 (.made 8), .init 2 none, .insert 2 8 1, .leave 2,
    .callExecute (Env.plain.id 8), .find 3 (Env.plain.id 8) (some 1)]

theorem not_noStale_reuse : Function.Injective Env.plain.createGuidFromBytes ∧
    ∃ s, (registry Env.plain).run reuse = some s ∧ ¬ NoStale Env.plain reuse s := by
  refine ⟨Env.plain_injective, ?_⟩
  have hrun : ((registry Env.plain).run reuse).isSome := by decide
  obtain ⟨s, hs⟩ := Option.isSome_iff_exists.1 hrun
  refine ⟨s, hs, fun h => ?_⟩
  -- the create of A, the release of its id, and the execute of the third client
  have hgone := (h.gone [.callCreate "A" "", .factory 0 (.made 8), .init 0 none] 0 8 0
    [.leave 0, .callRelease (Env.plain.id 8), .erase 1 (Env.plain.id 8),
      .callCreate "B" "", .factory 2 (.made 8), .init 2 none, .insert 2 8 1, .leave 2, .callExecute (Env.plain.id 8)]
    (.find 3 (Env.plain.id 8) (some 1)) [] 3 (some 1) rfl (.inl rfl) ⟨1, by simp⟩).1
  cases hgone

end Nessus.Register
