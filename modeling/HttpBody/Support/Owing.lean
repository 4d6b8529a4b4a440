import HttpBody.Support.Lifting
import Mathlib.Algebra.BigOperators.Group.List.Basic
import Mathlib.Algebra.GroupWithZero.Nat

/-!
# Machines that owe

A machine owes a number if the weights of its items add up to it when they are all there.
It tells the number at first and after every item; while it is suspended it may tell less.
-/

namespace HttpBody.Support

universe u

variable {σ τ ω ω' W : Type u}

/-- An answer is an item of some weight, or the last one: all items were given, or the
machine has failed. -/
inductive Share where
  | item (weight : ℕ)
  | done
  | failed
  deriving DecidableEq, Repr

/-- What the items among some answers weigh. -/
def Share.weight : Share → ℕ
  | .item weight => weight
  | .done => 0
  | .failed => 0

/-- The weight of the results of a run. -/
def paid (share : ω → Share) (rs : List (Poll ω)) : ℕ :=
  ((readies rs).map fun o => (share o).weight).sum

/-- A call of a machine that owes `n`, and leaves a state in `Q`. -/
inductive Pays (share : ω → Share) (Q : ℕ → Bool → σ → Prop) (n : ℕ) : Poll ω → σ → Prop where
  | pending {s} (told : Bool) : Q n told s → Pays share Q n .pending s
  | item {o m k s} : share o = .item m → n = m + k → Q k true s → Pays share Q n (.ready o) s
  | done {o s} : share o = .done → n = 0 → Pays share Q n (.ready o) s
  | failed {o s} : share o = .failed → Pays share Q n (.ready o) s

/-- The same payment, by a machine in another state. -/
theorem Pays.map {share : ω → Share} {Q : ℕ → Bool → σ → Prop} {Q' : ℕ → Bool → τ → Prop}
    {n : ℕ} {r : Poll ω} {s : σ} {u : τ} (himp : ∀ k told, Q k told s → Q' k told u)
    (h : Pays share Q n r s) : Pays share Q' n r u := by
  cases h with
  | pending told hs => exact .pending told (himp _ _ hs)
  | item ho hn hs => exact .item ho hn (himp _ _ hs)
  | done ho hn => exact .done ho hn
  | failed ho => exact .failed ho

/-- The machine owes `n`.  Its states tell this by `tells`, and all of it if `told`. -/
def Owes (poll : σ → Call (Poll ω × σ)) (share : ω → Share) (tells : ℕ → Bool → σ → Prop)
    (n : ℕ) (told : Bool) (s : σ) : Prop :=
  ∃ Q : ℕ → Bool → σ → Prop, Q n told s ∧ (∀ n told s, Q n told s → tells n told s) ∧
    ∀ n told s, Q n told s → ∀ t r s', Call.steps poll s t r s' → Pays share Q n r s'

namespace Owes

variable {poll : σ → Call (Poll ω × σ)} {share : ω → Share} {tells : ℕ → Bool → σ → Prop}
  {n : ℕ} {told : Bool} {s s' : σ}

theorem here (h : Owes poll share tells n told s) : tells n told s := by
  obtain ⟨Q, hs, htells, -⟩ := h
  exact htells n told s hs

theorem step (h : Owes poll share tells n told s) {t : List Event} {r : Poll ω}
    (hstep : Call.steps poll s t r s') : Pays share (Owes poll share tells) n r s' := by
  obtain ⟨Q, hs, htells, hcall⟩ := h
  exact (hcall n told s hs t r s' hstep).map fun k told hs => ⟨Q, hs, htells, hcall⟩

/-- What is owed after a run is what its items have left. -/
theorem runs (h : Owes poll share tells n told s) {rs : List (Poll ω)}
    (hrun : Runs (Call.steps poll) s rs s') (hrs : ∀ o, .ready o ∈ rs → ∃ m, share o = .item m) :
    ∃ k told', n = paid share rs + k ∧ Owes poll share tells k told' s' := by
  induction hrun generalizing n told with
  | nil s => exact ⟨n, told, (Nat.zero_add n).symm, h⟩
  | @cons s t r s₁ rs s' hstep _ ih =>
      have hlater : ∀ o, .ready o ∈ rs → ∃ m, share o = .item m :=
        fun o ho => hrs o (List.mem_cons_of_mem r ho)
      cases h.step hstep with
      | pending _ hs => exact ih hs hlater
      | @item o m k _ ho hn hs =>
          obtain ⟨j, told', hk, hlast⟩ := ih hs hlater
          refine ⟨j, told', ?_, hlast⟩
          have hpaid : paid share (.ready o :: rs) = m + paid share rs := by
            simp [paid, ho, Share.weight]
          omega
      | @done o _ ho _ =>
          obtain ⟨m, hm⟩ := hrs o List.mem_cons_self
          cases ho.symm.trans hm
      | @failed o _ ho =>
          obtain ⟨m, hm⟩ := hrs o List.mem_cons_self
          cases ho.symm.trans hm

/-- Relays that hand on what each answer is, while what is owed stays within `I`. -/
theorem relay {T : Type u} {inner : σ → Call (Poll ω × σ)} {outer : W → Call (Poll ω' × W)}
    {mk : T → σ → W} {f : T → ω → ω' × T} (h : Relays inner outer mk f) {share' : ω' → Share}
    {tells' : ℕ → Bool → W → Prop} (I : T → ℕ → Prop)
    (hitem : ∀ t o m k, I t (m + k) → share o = .item m →
      share' (f t o).1 = .item m ∧ I (f t o).2 k)
    (hdone : ∀ t o, share o = .done → share' (f t o).1 = .done)
    (hfailed : ∀ t o, share o = .failed → share' (f t o).1 = .failed)
    (htells : ∀ t n told s, I t n → tells n told s → tells' n told (mk t s)) {t : T}
    (hs : Owes inner share tells n told s) (ht : I t n) :
    Owes outer share' tells' n told (mk t s) := by
  refine ⟨fun n told w => ∃ t s, I t n ∧ Owes inner share tells n told s ∧ w = mk t s,
    ⟨t, s, ht, hs, rfl⟩, ?_, ?_⟩
  · rintro n told _ ⟨t, s, ht, hs, rfl⟩
    exact htells t n told s ht hs.here
  · rintro n told _ ⟨t, s, ht, hs, rfl⟩ u r w hstep
    rcases h.step_cases hstep with ⟨s', hs', rfl, rfl⟩ | ⟨o, s', hs', rfl, rfl⟩
    · cases hs.step hs' with
      | pending told hnext => exact .pending told ⟨t, s', ht, hnext, rfl⟩
    · cases hs.step hs' with
      | item ho hn hnext =>
          obtain ⟨ho', ht'⟩ := hitem t o _ _ (hn ▸ ht) ho
          exact .item ho' hn ⟨_, s', ht', hnext, rfl⟩
      | done ho hn => exact .done (hdone t o ho) hn
      | failed ho => exact .failed (hfailed t o ho)

/-- A machine that cannot be told from one that owes owes the same. -/
theorem of_indistinct {g : τ → Call (Poll ω × τ)} {γ : Type u} {look : σ → γ} {look' : τ → γ}
    {tells' : ℕ → Bool → τ → Prop} {u : τ} (hsame : Indistinct poll g Eq look look' s u)
    (htells : ∀ n told s u, look s = look' u → tells n told s → tells' n told u)
    (h : Owes poll share tells n told s) : Owes g share tells' n told u := by
  refine ⟨fun n told u => ∃ s, Indistinct poll g Eq look look' s u ∧
    Owes poll share tells n told s, ⟨s, hsame, h⟩, ?_, ?_⟩
  · rintro n told u ⟨s, hsame, h⟩
    exact htells n told s u hsame.shows h.here
  · rintro n told u ⟨s, hsame, h⟩ t r u' hstep
    obtain ⟨s', hstep', hnext⟩ := hsame.symm.step hstep
    exact (h.step hstep').map fun k told hs => ⟨s', hnext.symm, hs⟩

end Owes

end HttpBody.Support
