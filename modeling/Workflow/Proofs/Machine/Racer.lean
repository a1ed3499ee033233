import Workflow.Proofs.Machine.Race

/-! Who waits for a race.

The task that starts a race is the only one that ever waits for it,
and it is there before the branches. -/
namespace Workflow

variable {r : Runner}

namespace Machine
variable {m m' : Machine r} {a : Happening} {i : Nat} {t : Task} {e : Effect r}

/-- Every race is waited for by one task at most, which was there before the branches. -/
structure Convened (m : Machine r) : Prop where
  single : ∀ (i j : Nat) (t u : Task) (race : Nat) (pending pending' : List Continuation),
    m.tasks[i]? = some t → m.tasks[j]? = some u → t.phase = .racing race pending →
    u.phase = .racing race pending' → i = j
  later : ∀ (i j : Nat) (t u : Task) (race : Nat) (pending : List Continuation),
    m.tasks[i]? = some t → t.phase = .racing race pending → m.tasks[j]? = some u →
    u.isBranch race = true → i < j

theorem convened_initial (h : Initial m) : m.Convened := by
  have idle : ∀ (i : Nat) (t : Task) (race : Nat) (pending : List Continuation),
      m.tasks[i]? = some t → t.phase ≠ .racing race pending := by
    intro i t race pending ht hp
    obtain ⟨-, -, _, ⟨_, _, hw⟩, -⟩ := h.writers i t ht
    cases hp.symm.trans hw
  constructor
  · intro i j t u race pending pending' ht hu hp
    exact absurd hp (idle i t race pending ht)
  · intro i j t u race pending ht hp
    exact absurd hp (idle i t race pending ht)

theorem convened_step (hs : Stepped m i t e m') (hf : m.Fit) (hl : m.Ledger) (hc : m.Convened) :
    m'.Convened := by
  -- a race that somebody waits for or takes part in is older than one that is just started
  have old : ∀ (j : Nat) (u : Task) (pending : List Continuation), m.tasks[j]? = some u →
      u.phase ≠ .racing m.world.races.size pending := by
    intro j u pending hu hp
    exact Nat.lt_irrefl _ (hl.racing j u _ pending hu hp)
  constructor
  · intro j k u v race pending pending' hu hv hp hp'
    rcases hs.racing_cases hf hu hp with hu | ⟨rfl, rfl, -⟩ <;>
      rcases hs.racing_cases hf hv hp' with hv | ⟨rfl, hrace, -⟩
    · exact hc.single j k u v race pending pending' hu hv hp hp'
    · subst hrace
      exact absurd hp (old j u pending hu)
    · exact absurd hp' (old k v pending' hv)
    · rfl
  · intro j k u v race pending hu hp hv hb
    rcases hs.racing_cases hf hu hp with hu | ⟨rfl, rfl, -⟩ <;>
      rcases hs.branch_cases hf hv hb with ⟨v₀, hv₀, hrole⟩ | ⟨hk, hrace, -⟩
    · rw [← Task.isBranch_congr hrole] at hb
      exact hc.later j k u v₀ race pending hu hp hv₀ hb
    · subst hrace
      exact absurd hp (old j u pending hu)
    · rw [← Task.isBranch_congr hrole] at hb
      exact absurd (hl.branch k v₀ _ hv₀ hb) (Nat.lt_irrefl _)
    · exact Nat.lt_of_lt_of_le hs.lt hk

theorem convened_idle {added : List Task} (hi : Idled m a added m') (hc : m.Convened) :
    m'.Convened := by
  have old : ∀ (j : Nat) (u : Task) (race : Nat) (pending : List Continuation),
      m'.tasks[j]? = some u → u.phase = .racing race pending → m.tasks[j]? = some u := by
    intro j u race pending hu hp
    rcases hi.cases hu with hu | ⟨-, hu⟩
    · exact hu
    · obtain ⟨p, container, -, rfl⟩ := hi.programs u hu
      cases hp
  constructor
  · intro j k u v race pending pending' hu hv hp hp'
    exact hc.single j k u v race pending pending' (old j u race pending hu hp)
      (old k v race pending' hv hp') hp hp'
  · intro j k u v race pending hu hp hv hb
    have hu := old j u race pending hu hp
    rcases hi.cases hv with hv | ⟨-, hv⟩
    · exact hc.later j k u v race pending hu hp hv hb
    · obtain ⟨p, container, -, rfl⟩ := hi.programs v hv
      cases hb

theorem convened_reachable (hm : m.Reachable) : m.Convened := by
  apply hm.invariant fun _ => convened_initial
  intro m a m' hm ha hc
  cases ha with
  | step hs => exact convened_step hs (fit_reachable hm) (ledger_reachable hm) hc
  | idle _ hi => exact convened_idle hi hc

end Machine

end Workflow
