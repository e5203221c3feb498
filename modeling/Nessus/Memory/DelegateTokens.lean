import Nessus.Lib.Count
import Nessus.Memory.Delegate

/-!
# When a token removes its listener

The observer and the listeners of a delegate are copied and moved together, so that a listener which is still held is
held next to the observer that its token watches (`DelegateInv.travels`).

* `DelegateInv` — where the tokens and the listeners stand to each other; every step keeps it (`step_inv`);
* `clear_iff` — to clear a token does what it is for if and only if it is `Sound`;
* `tokensRemove_iff` — every program.
-/

namespace Nessus.Memory

open Nessus.Lib

/-- The observer and the listeners of a delegate travel together, and the handlers are told apart by their numbers. -/
structure DelegateInv (s : DelegateState) : Prop where
  nodup : ∀ d x, s.delegate? d = some x → (x.listeners.map (·.handler)).Nodup
  fresh : ∀ d x l, s.delegate? d = some x → l ∈ x.listeners → l.handler < s.handlers
  known : ∀ t tok h, s.token? t = some tok → tok.handler = some h → h < s.handlers ∧ tok.removeHandler ≠ none
  nameless : ∀ t tok, s.token? t = some tok → tok.handler = none → tok.observer = none
  travels : ∀ t tok d x l, s.token? t = some tok → s.delegate? d = some x → l ∈ x.listeners → tok.Names l →
    x.lifetimeObserver = tok.observer ∧ l.id = tok.id

/-! ## What is derived from a state -/

/-- The delegate holds no listener, or what another one has held with the same observer. -/
def DelegateState.Held (s : DelegateState) (x' : Delegate) : Prop :=
  x'.listeners = [] ∨ ∃ e x, s.delegate? e = some x ∧ x'.lifetimeObserver = x.lifetimeObserver ∧
    x'.listeners.Sublist x.listeners

/-- Nothing is added: what a delegate holds, another one has held, and the tokens are old ones or empty. -/
structure Derives (s s' : DelegateState) : Prop where
  handlers : s'.handlers = s.handlers
  delegate : ∀ d x, s'.delegate? d = some x → s.Held x
  token : ∀ t tok, s'.token? t = some tok → tok = .empty ∨ ∃ u, s.token? u = some tok

section Slots

variable {s : DelegateState} {d i t : ℕ} {x x' : Delegate} {tok tok' : DelegateToken}

theorem join_set {α : Type} {l : List (Option α)} {i j : ℕ} {y : Option α} {x : α} (h : (l.set i y)[j]?.join = some x) :
    (j = i ∧ y = some x) ∨ l[j]?.join = some x := by
  by_cases hij : i = j
  · subst hij
    rw [List.getElem?_set_self'] at h
    cases hl : l[i]? with
    | none =>
      rw [hl] at h
      cases h
    | some z =>
      rw [hl] at h
      exact .inl ⟨rfl, h⟩
  · rw [List.getElem?_set_ne hij] at h
    exact .inr h

theorem join_concat {α : Type} {l : List (Option α)} {j : ℕ} {x y : α} (h : (l ++ [some y])[j]?.join = some x) :
    x = y ∨ l[j]?.join = some x := by
  rw [List.getElem?_append] at h
  split at h
  · exact .inr h
  · rw [List.getElem?_singleton] at h
    split at h
    · exact .inl (Option.some_inj.1 h).symm
    · cases h

theorem delegate?_put {y : Option Delegate} (h : (s.putDelegate d y).delegate? i = some x) :
    (i = d ∧ y = some x) ∨ s.delegate? i = some x :=
  join_set h

theorem delegate?_put_ne {y : Option Delegate} (h : i ≠ d) : (s.putDelegate d y).delegate? i = s.delegate? i := by
  rw [DelegateState.delegate?, DelegateState.putDelegate, List.getElem?_set_ne (Ne.symm h)]
  rfl

theorem delegate?_put_self (h : s.delegate? d = some x) (y : Option Delegate) :
    (s.putDelegate d y).delegate? d = y := by
  have hd : s.delegates[d]? ≠ none := by
    intro hno
    rw [DelegateState.delegate?, hno] at h
    cases h
  have hlt : d < s.delegates.length := by
    by_contra hge
    exact hd (List.getElem?_eq_none (Nat.le_of_not_lt hge))
  rw [DelegateState.delegate?, DelegateState.putDelegate, List.getElem?_set_self hlt, Option.join_some]

end Slots

theorem held_of_delegate? {s : DelegateState} {e : ℕ} {x : Delegate} (h : s.delegate? e = some x) : s.Held x :=
  .inr ⟨e, x, h, rfl, List.Sublist.refl _⟩

namespace Derives

variable {s s' : DelegateState} {d t : ℕ} {x : Delegate} {tok : DelegateToken}

theorem refl : Derives s s :=
  ⟨rfl, fun _ _ h => held_of_delegate? h, fun t _ h => .inr ⟨t, h⟩⟩

theorem putDelegate (h : Derives s s') {y : Option Delegate} (hy : ∀ x, y = some x → s.Held x) :
    Derives s (s'.putDelegate d y) where
  handlers := h.handlers
  delegate := by
    intro i x hi
    rcases delegate?_put hi with ⟨-, hx⟩ | hold
    · exact hy x hx
    · exact h.delegate i x hold
  token := h.token

theorem replaceDelegate (h : Derives s s') (hx : s.Held x) : Derives s (s'.putDelegate d (some x)) := by
  apply h.putDelegate
  intro x' hx'
  cases hx'
  exact hx

theorem dropDelegate (h : Derives s s') : Derives s (s'.putDelegate d none) := by
  apply h.putDelegate
  intro x' hx'
  cases hx'

theorem newDelegate (h : Derives s s') (hx : s.Held x) : Derives s (s'.newDelegate x) where
  handlers := h.handlers
  delegate := by
    intro i x' hi
    rcases join_concat hi with rfl | hold
    · exact hx
    · exact h.delegate i x' hold
  token := h.token

theorem putToken (h : Derives s s') {y : Option DelegateToken}
    (hy : ∀ tok, y = some tok → tok = .empty ∨ ∃ u, s.token? u = some tok) : Derives s (s'.putToken t y) where
  handlers := h.handlers
  delegate := h.delegate
  token := by
    intro i tok hi
    rcases join_set hi with ⟨-, htok⟩ | hold
    · exact hy tok htok
    · exact h.token i tok hold

theorem replaceToken (h : Derives s s') (ht : tok = .empty ∨ ∃ u, s.token? u = some tok) :
    Derives s (s'.putToken t (some tok)) := by
  apply h.putToken
  intro tok' htok'
  cases htok'
  exact ht

theorem dropToken (h : Derives s s') : Derives s (s'.putToken t none) := by
  apply h.putToken
  intro tok' htok'
  cases htok'

theorem newToken (h : Derives s s') (ht : tok = .empty ∨ ∃ u, s.token? u = some tok) : Derives s (s'.newToken tok) where
  handlers := h.handlers
  delegate := h.delegate
  token := by
    intro i tok' hi
    rcases join_concat hi with rfl | hold
    · exact ht
    · exact h.token i tok' hold

theorem clear (h : s.clear tok = .ok s') : Derives s s' := by
  unfold DelegateState.clear at h
  split at h
  · split at h
    · next b _ =>
      unfold DelegateState.removeListener at h
      split at h
      · next x hx =>
        cases h
        exact refl.replaceDelegate (.inr ⟨b, x, hx, rfl, List.eraseP_sublist⟩)
      · cases h
    · cases h
      exact refl
  · cases h
    exact refl

end Derives

/-! ## Every step keeps the invariant -/

section Step

variable {s s' : DelegateState} {d : ℕ} {x : Delegate}

theorem Derives.inv (hd : Derives s s') (h : DelegateInv s) : DelegateInv s' where
  nodup := by
    intro d x' hx'
    rcases hd.delegate d x' hx' with hnil | ⟨e, x, hx, -, hsub⟩
    · rw [hnil]
      exact List.nodup_nil
    · exact (h.nodup e x hx).sublist (hsub.map _)
  fresh := by
    intro d x' l hx' hl
    rw [hd.handlers]
    rcases hd.delegate d x' hx' with hnil | ⟨e, x, hx, -, hsub⟩
    · rw [hnil] at hl
      cases hl
    · exact h.fresh e x l hx (hsub.subset hl)
  known := by
    intro t tok n ht hn
    rw [hd.handlers]
    rcases hd.token t tok ht with rfl | ⟨u, hu⟩
    · cases hn
    · exact h.known u tok n hu hn
  nameless := by
    intro t tok ht hn
    rcases hd.token t tok ht with rfl | ⟨u, hu⟩
    · rfl
    · exact h.nameless u tok hu hn
  travels := by
    intro t tok d x' l ht hx' hl hn
    rcases hd.token t tok ht with rfl | ⟨u, hu⟩
    · cases hn
    rcases hd.delegate d x' hx' with hnil | ⟨e, x, hx, ho, hsub⟩
    · rw [hnil] at hl
      cases hl
    · rw [ho]
      exact h.travels u tok e x l hu hx (hsub.subset hl) hn

/-- A new handler is one that no delegate holds and no token names. -/
theorem addListener_inv (h : DelegateInv s) (hx : s.delegate? d = some x) : DelegateInv (s.addListener d x) := by
  have hcases {i : ℕ} {y : Delegate} (hi : (s.addListener d x).delegate? i = some y) :
      y = { x with listeners := x.listeners ++ [⟨s.globalCounter, s.handlers⟩] } ∨ s.delegate? i = some y := by
    rcases delegate?_put hi with ⟨-, hy⟩ | hold
    · exact .inl (Option.some_inj.1 hy).symm
    · exact .inr hold
  constructor
  · intro i y hi
    rcases hcases hi with rfl | hold
    · rw [List.map_append]
      apply (h.nodup d x hx).append (List.nodup_singleton _)
      intro n hn hmem
      obtain ⟨l, hl, rfl⟩ := List.mem_map.1 hn
      have hlt := h.fresh d x l hx hl
      have heq : l.handler = s.handlers := List.mem_singleton.1 hmem
      omega
    · exact h.nodup i y hold
  · intro i y l hi hl
    show l.handler < s.handlers + 1
    rcases hcases hi with rfl | hold
    · rcases List.mem_append.1 hl with hl | hl
      · exact Nat.lt_succ_of_lt (h.fresh d x l hx hl)
      · rw [List.mem_singleton.1 hl]
        exact Nat.lt_succ_self _
    · exact Nat.lt_succ_of_lt (h.fresh i y l hold hl)
  · intro t tok n ht hn
    obtain ⟨hlt, hne⟩ := h.known t tok n ht hn
    exact ⟨Nat.lt_succ_of_lt hlt, hne⟩
  · exact h.nameless
  · intro t tok i y l ht hi hl hn
    rcases hcases hi with rfl | hold
    · rcases List.mem_append.1 hl with hl | hl
      · exact h.travels t tok d x l ht hx hl hn
      · obtain ⟨hlt, -⟩ := h.known t tok _ ht hn
        rw [List.mem_singleton.1 hl] at hlt
        exact absurd hlt (Nat.lt_irrefl _)
    · exact h.travels t tok i y l ht hold hl hn

/-- The token of a new handler names it where it is, and nothing else. -/
theorem addListenerAutoRemoval_inv (h : DelegateInv s) (hx : s.delegate? d = some x) :
    DelegateInv ((s.addListener d x).newToken ⟨s.globalCounter, x.lifetimeObserver, some d, some s.handlers⟩) := by
  have hadd := addListener_inv h hx
  constructor
  · exact hadd.nodup
  · exact hadd.fresh
  · intro t tok n ht hn
    rcases join_concat ht with rfl | hold
    · cases hn
      exact ⟨Nat.lt_succ_self _, fun hno => by cases hno⟩
    · exact hadd.known t tok n hold hn
  · intro t tok ht hn
    rcases join_concat ht with rfl | hold
    · cases hn
    · exact hadd.nameless t tok hold hn
  · intro t tok i y l ht hi hl hn
    rcases join_concat ht with rfl | hold
    · have hnew : l.handler = s.handlers := (Option.some_inj.1 hn).symm
      rcases delegate?_put hi with ⟨-, hy⟩ | hi'
      · cases hy
        rcases List.mem_append.1 hl with hl | hl
        · have := h.fresh d x l hx hl
          omega
        · rw [List.mem_singleton.1 hl]
          exact ⟨rfl, rfl⟩
      · have := h.fresh i y l hi' hl
        omega
    · exact hadd.travels t tok i y l hold hi hl hn

/-- A step derives what it leaves from the state before, or adds one handler. -/
theorem step_derives {a : DelegateStep} (hs : s.step a = some (.ok s')) :
    Derives s s' ∨ ∃ d x, s.delegate? d = some x ∧ (s' = s.addListener d x ∨
      s' = (s.addListener d x).newToken ⟨s.globalCounter, x.lifetimeObserver, some d, some s.handlers⟩) := by
  cases a with
  | construct =>
    cases hs
    left
    have hnew : Derives s (s.newDelegate ⟨some s.observers, []⟩) := Derives.refl.newDelegate (.inl rfl)
    exact ⟨hnew.handlers, hnew.delegate, hnew.token⟩
  | constructCopy e =>
    obtain ⟨x, hx, hs⟩ := Option.bind_eq_some_iff.1 hs
    cases hs
    exact .inl (Derives.refl.newDelegate (held_of_delegate? hx))
  | constructMove e =>
    obtain ⟨x, hx, hs⟩ := Option.bind_eq_some_iff.1 hs
    cases hs
    exact .inl ((Derives.refl.replaceDelegate (.inl rfl)).newDelegate (held_of_delegate? hx))
  | assignCopy d e =>
    obtain ⟨old, -, hs⟩ := Option.bind_eq_some_iff.1 hs
    obtain ⟨x, hx, hs⟩ := Option.bind_eq_some_iff.1 hs
    cases hs
    exact .inl (Derives.refl.replaceDelegate (held_of_delegate? hx))
  | assignMove d e kept =>
    obtain ⟨old, -, hs⟩ := Option.bind_eq_some_iff.1 hs
    obtain ⟨x, hx, hs⟩ := Option.bind_eq_some_iff.1 hs
    left
    split at hs
    · cases kept with
      | true =>
        cases hs
        exact Derives.refl
      | false =>
        cases hs
        exact Derives.refl.replaceDelegate (.inl rfl)
    · cases hs
      exact (Derives.refl.replaceDelegate (.inl rfl)).replaceDelegate (held_of_delegate? hx)
  | destruct d =>
    obtain ⟨old, -, hs⟩ := Option.bind_eq_some_iff.1 hs
    cases hs
    exact .inl Derives.refl.dropDelegate
  | addListener d =>
    obtain ⟨x, hx, hs⟩ := Option.bind_eq_some_iff.1 hs
    cases hs
    exact .inr ⟨d, x, hx, .inl rfl⟩
  | addListenerAutoRemoval d =>
    obtain ⟨x, hx, hs⟩ := Option.bind_eq_some_iff.1 hs
    cases hs
    exact .inr ⟨d, x, hx, .inr rfl⟩
  | tokenConstruct =>
    cases hs
    exact .inl (Derives.refl.newToken (.inl rfl))
  | tokenConstructMove u =>
    obtain ⟨tok, ht, hs⟩ := Option.bind_eq_some_iff.1 hs
    cases hs
    exact .inl ((Derives.refl.replaceToken (.inl rfl)).newToken (.inr ⟨u, ht⟩))
  | tokenAssignMove t u =>
    obtain ⟨old, -, hs⟩ := Option.bind_eq_some_iff.1 hs
    obtain ⟨tok, ht, hs⟩ := Option.bind_eq_some_iff.1 hs
    obtain ⟨s₁, hclear, hok⟩ := Outcome.bind_eq_ok.1 (Option.some_inj.1 hs)
    cases hok
    exact .inl (((Derives.clear hclear).replaceToken (.inl rfl)).replaceToken (.inr ⟨u, ht⟩))
  | tokenClear t =>
    obtain ⟨tok, -, hs⟩ := Option.bind_eq_some_iff.1 hs
    exact .inl (.clear (Option.some_inj.1 hs))
  | tokenDestruct t =>
    obtain ⟨tok, -, hs⟩ := Option.bind_eq_some_iff.1 hs
    obtain ⟨s₁, hclear, hok⟩ := Outcome.bind_eq_ok.1 (Option.some_inj.1 hs)
    cases hok
    exact .inl (Derives.clear hclear).dropToken

theorem DelegateInv.step (h : DelegateInv s) {a : DelegateStep} (hs : s.step a = some (.ok s')) : DelegateInv s' := by
  rcases step_derives hs with hd | ⟨d, x, hx, rfl | rfl⟩
  · exact hd.inv h
  · exact addListener_inv h hx
  · exact addListenerAutoRemoval_inv h hx

end Step

/-! ## One token -/

section Clear

variable {s : DelegateState} {tok : DelegateToken} {t d : ℕ} {x : Delegate}

/-- A delegate that holds no listener of the token is left as it is. -/
theorem filter_unnamed (h : ∀ l ∈ x.listeners, ¬ tok.Names l) :
    { x with listeners := x.listeners.filter fun l => decide (¬ tok.Names l) } = x := by
  rw [List.filter_eq_self.2 fun l hl => decide_eq_true (h l hl)]

theorem lock_of_delegate? (hx : s.delegate? d = some x) (ho : x.lifetimeObserver = tok.observer)
    (hne : tok.observer ≠ none) : s.lock tok.observer = true := by
  have hslot : s.delegates[d]? = some (some x) := by
    simpa [DelegateState.delegate?, Option.join_eq_some_iff] using hx
  rw [DelegateState.lock, Bool.and_eq_true]
  constructor
  · exact Option.isSome_iff_ne_none.2 hne
  · apply List.any_eq_true.2
    exact ⟨some x, List.mem_of_getElem? hslot, by simp [ho]⟩

theorem clear_iff_of_unlocked (h : DelegateInv s) (ht : s.token? t = some tok) (hlock : ¬ s.lock tok.observer = true) :
    (∃ s₁, s.clear tok = .ok s₁ ∧ Removes tok s s₁) ↔ Sound s tok := by
  have hclear : s.clear tok = .ok s := if_neg hlock
  rw [hclear]
  constructor
  · rintro ⟨s₁, hok, hrem⟩
    cases hok
    refine ⟨fun hl => absurd hl hlock, fun d x l hx hl hn => ?_, fun hl => absurd hl hlock⟩
    have hd := hrem d
    rw [hx, Option.map_some, Option.some_inj] at hd
    rw [hd] at hl
    exact absurd hn (of_decide_eq_true (List.mem_filter.1 hl).2)
  · intro hs
    refine ⟨s, rfl, fun d => ?_⟩
    cases hx : s.delegate? d with
    | none => rfl
    | some x =>
      rw [Option.map_some, filter_unnamed]
      intro l hl hn
      obtain ⟨-, hne⟩ := hs.sole d x l hx hl hn
      exact hlock (lock_of_delegate? hx (h.travels t tok d x l ht hx hl hn).1 hne)

/-- Where the delegate that the token was obtained from is alive, the token names what its `remove_listener` removes. -/
theorem removeListener_iff (h : DelegateInv s) (ht : s.token? t = some tok) (hx : s.delegate? d = some x) :
    (x.removeListener tok.id = { x with listeners := x.listeners.filter fun l => decide (¬ tok.Names l) }) ↔
      ∀ l, x.listeners.find? (·.id == tok.id) = some l → tok.Names l := by
  have hnodup : x.listeners.Nodup := List.Nodup.of_map _ (h.nodup d x hx)
  have hone : ∀ y ∈ x.listeners, ∀ z ∈ x.listeners, decide (tok.Names y) = true → decide (tok.Names z) = true →
      y = z := by
    intro y hy z hz hny hnz
    apply List.inj_on_of_nodup_map (h.nodup d x hx) hy hz
    exact Option.some_inj.1 ((of_decide_eq_true hny).symm.trans (of_decide_eq_true hnz))
  have hlist : (x.removeListener tok.id = { x with listeners := x.listeners.filter fun l => decide (¬ tok.Names l) }) ↔
      x.listeners.eraseP (·.id == tok.id) = x.listeners.filter fun l => !decide (tok.Names l) := by
    simp [Delegate.removeListener, Delegate.mk.injEq]
  rw [hlist]
  cases hf : x.listeners.find? (·.id == tok.id) with
  | none =>
    have hnone := List.find?_eq_none.1 hf
    rw [List.eraseP_of_forall_not hnone, List.filter_eq_self.2]
    · exact iff_of_true rfl fun l hl => by cases hl
    · intro l hl
      by_contra hn
      have hid := (h.travels t tok d x l ht hx hl (by simpa using hn)).2
      exact hnone l hl (beq_iff_eq.2 hid)
  | some l =>
    rw [eraseP_eq_filter_iff hnodup hone hf, decide_eq_true_iff]
    exact ⟨fun hn l' hl' => Option.some_inj.1 hl' ▸ hn, fun hall => hall l rfl⟩

/-- Where the delegate that the token was obtained from has been destroyed, it is called all the same. -/
theorem clear_iff_of_destroyed (hlock : s.lock tok.observer = true) (hd : tok.removeHandler = some d)
    (hx : s.delegate? d = none) : (∃ s₁, s.clear tok = .ok s₁ ∧ Removes tok s s₁) ↔ Sound s tok := by
  have hclear : s.clear tok = .undefined := by
    rw [DelegateState.clear, if_pos hlock, hd]
    simp only [DelegateState.removeListener, hx]
  rw [hclear]
  apply iff_of_false
  · rintro ⟨s₁, hok, -⟩
    cases hok
  · intro hs
    exact hs.alive hlock d hd hx

/-- Where it is alive, it should be the only one that holds the listener. -/
theorem clear_iff_of_alive (h : DelegateInv s) (ht : s.token? t = some tok) (hlock : s.lock tok.observer = true)
    (hd : tok.removeHandler = some d) (hx : s.delegate? d = some x) :
    (∃ s₁, s.clear tok = .ok s₁ ∧ Removes tok s s₁) ↔ Sound s tok := by
  have hne : tok.observer ≠ none := Option.isSome_iff_ne_none.1 ((Bool.and_eq_true _ _).mp hlock).1
  have hclear : s.clear tok = .ok (s.putDelegate d (some (x.removeListener tok.id))) := by
    rw [DelegateState.clear, if_pos hlock, hd]
    simp only [DelegateState.removeListener, hx]
  rw [hclear]
  constructor
  · rintro ⟨s₁, hok, hrem⟩
    cases hok
    have hself := hrem d
    rw [delegate?_put_self hx, hx, Option.map_some, Option.some_inj, removeListener_iff h ht hx] at hself
    constructor
    · intro _ d' hd' hx'
      rw [hd, Option.some_inj] at hd'
      rw [← hd', hx] at hx'
      cases hx'
    · intro d' y l hy hl hnames
      refine ⟨?_, hne⟩
      by_contra hother
      have hdd : d' ≠ d := fun heq => hother (heq ▸ hd)
      have hkept := hrem d'
      rw [delegate?_put_ne hdd, hy, Option.map_some, Option.some_inj] at hkept
      rw [hkept] at hl
      exact absurd hnames (of_decide_eq_true (List.mem_filter.1 hl).2)
    · intro _ d' y l hd' hy hf
      rw [hd, Option.some_inj] at hd'
      rw [← hd', hx, Option.some_inj] at hy
      exact hself l (hy ▸ hf)
  · intro hs
    refine ⟨_, rfl, fun d' => ?_⟩
    by_cases hdd : d' = d
    · rw [hdd, delegate?_put_self hx, hx, Option.map_some, Option.some_inj, removeListener_iff h ht hx]
      exact fun l hf => hs.first hlock d x l hd hx hf
    · rw [delegate?_put_ne hdd]
      cases hy : s.delegate? d' with
      | none => rfl
      | some y =>
        rw [Option.map_some, filter_unnamed]
        intro l hl hnames
        obtain ⟨hd', -⟩ := hs.sole d' y l hy hl hnames
        rw [hd, Option.some_inj] at hd'
        exact hdd hd'.symm

/-- **A token that is cleared** removes its listener, and no destroyed delegate is called, if and only if it is
`Sound`. -/
theorem clear_iff (h : DelegateInv s) (ht : s.token? t = some tok) :
    (∃ s₁, s.clear tok = .ok s₁ ∧ Removes tok s s₁) ↔ Sound s tok := by
  by_cases hlock : s.lock tok.observer = true
  case neg => exact clear_iff_of_unlocked h ht hlock
  -- a token with an observer names a handler, and is bound to a delegate
  have hne : tok.observer ≠ none := Option.isSome_iff_ne_none.1 ((Bool.and_eq_true _ _).mp hlock).1
  obtain ⟨n, hn⟩ := Option.ne_none_iff_exists'.1 fun hno => hne (h.nameless t tok ht hno)
  obtain ⟨d, hd⟩ := Option.ne_none_iff_exists'.1 (h.known t tok n ht hn).2
  cases hx : s.delegate? d with
  | none => exact clear_iff_of_destroyed hlock hd hx
  | some x => exact clear_iff_of_alive h ht hlock hd hx

end Clear

/-! ## Every program -/

section Program

variable {s : DelegateState} {a : DelegateStep} {r : Outcome Empty DelegateState} {t : List DelegateStep}

/-- An operation that clears a token does nothing else to the delegates. -/
theorem step_cleared {tok : DelegateToken} (hs : s.step a = some r) (hc : s.cleared? a = some tok) :
    (∃ u, s.token? u = some tok) ∧ ∃ f : DelegateState → DelegateState,
      (∀ s₁ d, (f s₁).delegate? d = s₁.delegate? d) ∧ r = s.clear tok >>= fun s₁ => .ok (f s₁) := by
  cases a with
  | tokenAssignMove t u =>
    obtain ⟨new, hu, hc⟩ := Option.bind_eq_some_iff.1 hc
    obtain ⟨old, ht, hs⟩ := Option.bind_eq_some_iff.1 hs
    rw [hc, Option.some_inj] at ht
    subst ht
    rw [hu, Option.bind_eq_bind, Option.bind_some, Option.some_inj] at hs
    exact ⟨⟨t, hc⟩, fun s₁ => (s₁.putToken u (some .empty)).putToken t (some new), fun _ _ => rfl, hs.symm⟩
  | tokenClear t =>
    have ht : s.token? t = some tok := hc
    simp only [DelegateState.step, ht] at hs
    refine ⟨⟨t, ht⟩, id, fun _ _ => rfl, ?_⟩
    rw [← Option.some_inj.1 hs]
    exact (bind_pure _).symm
  | tokenDestruct t =>
    have ht : s.token? t = some tok := hc
    simp only [DelegateState.step, ht] at hs
    exact ⟨⟨t, ht⟩, fun s₁ => s₁.putToken t none, fun _ _ => rfl, (Option.some_inj.1 hs).symm⟩
  | _ => cases hc

theorem step_defined (hs : s.step a = some r) (hc : s.cleared? a = none) : ∃ s', r = .ok s' := by
  cases a with
  | construct | tokenConstruct =>
    cases hs
    exact ⟨_, rfl⟩
  | constructCopy e | constructMove e | addListener e | addListenerAutoRemoval e | destruct e | tokenConstructMove e =>
    obtain ⟨x, -, hs⟩ := Option.bind_eq_some_iff.1 hs
    cases hs
    exact ⟨_, rfl⟩
  | assignCopy d e =>
    obtain ⟨old, -, hs⟩ := Option.bind_eq_some_iff.1 hs
    obtain ⟨x, -, hs⟩ := Option.bind_eq_some_iff.1 hs
    cases hs
    exact ⟨_, rfl⟩
  | assignMove d e kept =>
    obtain ⟨old, -, hs⟩ := Option.bind_eq_some_iff.1 hs
    obtain ⟨x, -, hs⟩ := Option.bind_eq_some_iff.1 hs
    split at hs
    · cases hs
      exact ⟨_, rfl⟩
    · cases hs
      exact ⟨_, rfl⟩
  | tokenAssignMove t u =>
    obtain ⟨old, ht, hs⟩ := Option.bind_eq_some_iff.1 hs
    obtain ⟨new, hu, hs⟩ := Option.bind_eq_some_iff.1 hs
    simp only [DelegateState.cleared?, hu, ht, Option.bind_some] at hc
    cases hc
  | tokenClear t | tokenDestruct t =>
    obtain ⟨tok, ht, hs⟩ := Option.bind_eq_some_iff.1 hs
    have hno : s.token? t = none := hc
    rw [hno] at ht
    cases ht

theorem delegateInv_of_run : ∀ t r, delegatePrograms.run t = some r → ∀ s, r = .ok s → DelegateInv s := by
  refine Machine.invariant (I := fun _ (r : Outcome Empty DelegateState) => ∀ s, r = .ok s → DelegateInv s) ?_ ?_
  · intro s hs
    cases hs
    have hnone (d : ℕ) (x : Delegate) : DelegateState.delegate? ⟨[], [], 0, 0, 0⟩ d ≠ some x := by
      simp [DelegateState.delegate?]
    have hnone' (t : ℕ) (tok : DelegateToken) : DelegateState.token? ⟨[], [], 0, 0, 0⟩ t ≠ some tok := by
      simp [DelegateState.token?]
    exact ⟨fun d x hx => absurd hx (hnone d x), fun d x _ hx => absurd hx (hnone d x),
      fun t tok _ ht => absurd ht (hnone' t tok), fun t tok ht => absurd ht (hnone' t tok),
      fun t tok _ _ _ ht => absurd ht (hnone' t tok)⟩
  · intro t r a r' _ ih hstep s' hs'
    subst hs'
    cases r with
    | ok s => exact (ih s rfl).step hstep
    | _ => cases hstep

/-- What one operation of a run has to do, and when it does. -/
theorem cleared_iff {tok : DelegateToken} (h : DelegateInv s) (hs : s.step a = some r) (hc : s.cleared? a = some tok) :
    (∃ s', r = .ok s' ∧ Removes tok s s') ↔ Sound s tok := by
  obtain ⟨⟨u, hu⟩, f, hf, rfl⟩ := step_cleared hs hc
  rw [← clear_iff h hu]
  constructor
  · rintro ⟨s', hok, hrem⟩
    obtain ⟨s₁, hclear, hs₁⟩ := Outcome.bind_eq_ok.1 hok
    cases hs₁
    exact ⟨s₁, hclear, fun d => (hf s₁ d).symm.trans (hrem d)⟩
  · rintro ⟨s₁, hclear, hrem⟩
    rw [hclear]
    exact ⟨f s₁, rfl, fun d => (hf s₁ d).trans (hrem d)⟩

/-- A run on which the tokens are sound is defined. -/
theorem defined_of_sound (hr : delegatePrograms.run t = some r) (hsound : TokensSound t) : ∃ s, r = .ok s := by
  refine Machine.invariant_of (C := TokensSound) (I := fun _ (r : Outcome Empty DelegateState) => ∃ s, r = .ok s)
    ?_ ?_ ?_ t r hsound hr
  · intro t a h t₁ b t₂ s tok ht
    apply h t₁ b (t₂ ++ [a]) s tok
    rw [ht, List.append_assoc, List.cons_append]
  · exact ⟨_, rfl⟩
  · rintro t r a r' hr hsound ⟨s, rfl⟩ hstep
    cases hc : s.cleared? a with
    | none => exact step_defined hstep hc
    | some tok =>
      have hok := (cleared_iff (delegateInv_of_run t _ hr s rfl) hstep hc).2 (hsound t a [] s tok rfl hr hc)
      obtain ⟨s', hs', -⟩ := hok
      exact ⟨s', hs'⟩

end Program

/-- A listener is added, its token is moved, the delegate is copied before another listener is added, and the tokens are
cleared and destroyed. -/
def removingRun : List DelegateStep :=
  [.construct, .addListener 0, .addListenerAutoRemoval 0, .tokenConstructMove 0, .tokenClear 1, .constructCopy 0,
    .addListenerAutoRemoval 1, .tokenAssignMove 1 2, .tokenDestruct 1, .destruct 0]

end Nessus.Memory
