import Workflow.Proofs.Machine.Run
import Workflow.Session

/-! Sessions begin with a machine on which nothing has happened,
and their executor only makes moves. -/
namespace Workflow

variable {r : Runner}

theorem Setup.writer_eq_some {h : HostHandle} {i : Nat} {t : Task} (hw : writer h i = some t) :
    t.role = .host ∧ t.boundaries = [] ∧
      ∃ due, t.phase = .sleeping (some due) (.host ⟨i⟩ h.result) [] := by
  obtain ⟨due, -, rfl⟩ := Option.map_eq_some_iff.mp hw
  exact ⟨rfl, rfl, due, rfl⟩

theorem Setup.writer_writes {h : HostHandle} {i : Nat} {t : Task} {handle : Handle}
    (hw : writer h i = some t) (ht : t.Writes handle) : handle = ⟨i⟩ := by
  obtain ⟨-, -, due, hp⟩ := writer_eq_some hw
  obtain ⟨due', result, hp'⟩ := ht
  cases hp.symm.trans hp'
  rfl

/-- Different tasks write different handles of the host. -/
theorem Setup.writers_distinct (s : Setup) :
    s.machine.tasks.toList.Pairwise fun t u => ∀ h, t.Writes h → ¬ u.Writes h := by
  have hidx : s.handles.zipIdx.Pairwise fun a b => a.2 ≠ b.2 := by
    rw [← List.pairwise_map, List.zipIdx_map_snd]
    exact List.nodup_range'
  simp only [machine, List.pairwise_filterMap]
  refine hidx.imp ?_
  intro a b hne t ht u hu h hth huh
  have ha := writer_writes ht hth
  have hb := writer_writes hu huh
  rw [ha] at hb
  exact hne (congrArg Handle.index hb)

theorem Setup.machine_initial (s : Setup) : Machine.Initial s.machine := by
  refine ⟨rfl, ?_, ?_, ?_⟩
  · intro c hc
    exact (Array.mem_replicate.mp hc).2
  · intro i t ht
    have hmem : t ∈ s.machine.tasks.toList := Array.mem_toList_iff.mpr (Array.mem_of_getElem? ht)
    obtain ⟨⟨h, k⟩, hk, hw⟩ := List.mem_filterMap.mp hmem
    obtain ⟨hr, hb, due, hp⟩ := writer_eq_some hw
    refine ⟨hr, hb, ⟨k⟩, ⟨some due, h.result, hp⟩, ?_⟩
    have hlt : k < s.handles.length := by
      have := List.mem_zipIdx hk
      omega
    simpa [machine, world] using hlt
  · intro i j t u h ht hu hth huh
    have hd := List.pairwise_iff_getElem.mp s.writers_distinct
    obtain ⟨hi, rfl⟩ := Array.getElem?_eq_some_iff.mp ht
    obtain ⟨hj, rfl⟩ := Array.getElem?_eq_some_iff.mp hu
    rcases Nat.lt_trichotomy i j with hij | rfl | hij
    · exact absurd huh (hd i j hi hj hij h hth)
    · rfl
    · exact absurd hth (hd j i hj hi hij h huh)

namespace Machine

/-- The machine after some happenings, if they can happen. -/
def follow? (m : Machine r) : List Happening → Option (Machine r)
  | [] => some m
  | a :: as => (m.happen? a).bind fun m => m.follow? as

theorem run_of_follow? {m m' : Machine r} {as : List Happening} (h : m.follow? as = some m') :
    Run m as m' := by
  induction as generalizing m with
  | nil =>
    cases h
    exact .refl
  | cons a as ih =>
    obtain ⟨m₁, ha, h⟩ := Option.bind_eq_some_iff.mp h
    exact .step ha (ih h)

theorem reachable_of_follow? {s : Setup} {m : Machine s.runner} {as : List Happening}
    (h : s.machine.follow? as = some m) : m.Reachable :=
  ⟨s.machine, as, s.machine_initial, run_of_follow? h⟩

end Machine

end Workflow
