import Workflow.Proofs.Program.Translate

/-! Programs under other numbers of handles.

The number of a handle depends on how many there were before it. A program that is renumbered takes
every handle by its new number, and does with it what the program does with the old one. -/
namespace Workflow

def Handle.renumber (ρ : Equiv.Perm Nat) (h : Handle) : Handle := ⟨ρ h.index⟩

/-- Data with its handles renumbered. -/
def Kind.renumber (ρ : Equiv.Perm Nat) : (kind : Kind) → kind.Carrier → kind.Carrier
  | .handle => Handle.renumber ρ
  | .option kind => Option.map (kind.renumber ρ)
  | .list kind => List.map (kind.renumber ρ)
  | .pair a b => Prod.map (a.renumber ρ) (b.renumber ρ)
  | .either a b => Sum.map (a.renumber ρ) (b.renumber ρ)
  | .attempt kind => Except.map (kind.renumber ρ)
  | .unit | .flag | .text | .json | .foreign | .decoded _ | .response | .errorResponse | .status
  | .answer | .outcome => id

namespace Kind
variable {ρ σ : Equiv.Perm Nat} {kind : Kind}

theorem renumber_comp (h : ∀ i, σ (ρ i) = i) (kind : Kind) :
    kind.renumber σ ∘ kind.renumber ρ = id := by
  induction kind with
  | handle => exact funext fun v => congrArg Handle.mk (h v.index)
  | option kind ih =>
    exact (Option.map_comp_map ..).trans ((congrArg Option.map ih).trans Option.map_id)
  | list kind ih =>
    funext vs
    exact (List.map_map ..).trans ((congrArg (List.map · vs) ih).trans (List.map_id _))
  | pair a b iha ihb =>
    exact (Prod.map_comp_map ..).trans ((congrArg₂ Prod.map iha ihb).trans Prod.map_id)
  | either a b iha ihb =>
    exact (Sum.map_comp_map ..).trans ((congrArg₂ Sum.map iha ihb).trans Sum.map_id_id)
  | attempt kind ih =>
    funext v
    cases v with
    | ok v => exact congrArg Except.ok (congrFun ih v)
    | error e => rfl
  | _ => rfl

/-- Data without handles stays as it is. -/
theorem renumber_of_isPlain (h : kind.isPlain = true) : kind.renumber ρ = id := by
  induction kind with
  | handle => cases h
  | option kind ih => exact (congrArg Option.map (ih h)).trans Option.map_id
  | list kind ih => exact (congrArg List.map (ih h)).trans List.map_id_fun
  | pair a b iha ihb =>
    obtain ⟨ha, hb⟩ : a.isPlain = true ∧ b.isPlain = true := by simpa [isPlain] using h
    exact (congrArg₂ Prod.map (iha ha) (ihb hb)).trans Prod.map_id
  | either a b iha ihb =>
    obtain ⟨ha, hb⟩ : a.isPlain = true ∧ b.isPlain = true := by simpa [isPlain] using h
    exact (congrArg₂ Sum.map (iha ha) (ihb hb)).trans Sum.map_id_id
  | attempt kind ih => exact (congrArg Except.map (ih h)).trans (funext fun v => by cases v <;> rfl)
  | _ => rfl

end Kind

namespace Dyn

/-- A value with its handles renumbered. -/
def renumber (ρ : Equiv.Perm Nat) : Equiv.Perm Dyn where
  toFun d := ⟨d.kind, d.kind.renumber ρ d.value⟩
  invFun d := ⟨d.kind, d.kind.renumber ρ.symm d.value⟩
  left_inv d :=
    congrArg (Dyn.mk d.kind) (congrFun (Kind.renumber_comp ρ.symm_apply_apply d.kind) d.value)
  right_inv d :=
    congrArg (Dyn.mk d.kind) (congrFun (Kind.renumber_comp ρ.apply_symm_apply d.kind) d.value)

variable (ρ : Equiv.Perm Nat)

theorem renumber_of_isPlain {d : Dyn} (h : d.kind.isPlain = true) : renumber ρ d = d :=
  congrArg (Dyn.mk d.kind) (congrFun (Kind.renumber_of_isPlain h) d.value)

/-- Renumbering does not change the kind by which a value is taken. -/
theorem take_renumber (d : Dyn) (kind : Kind) :
    (renumber ρ d).take kind = (d.take kind).map (kind.renumber ρ) := by
  obtain ⟨kind', v⟩ := d
  by_cases hk : kind' = kind
  · subst hk
    simp [renumber, Except.map]
  · simp [renumber, take, hk, Except.map]

/-- What is taken without handles is the same. -/
theorem take_renumber_plain {kind : Kind} (h : kind.isPlain = true) (d : Dyn) :
    (renumber ρ d).take kind = d.take kind := by
  rw [take_renumber]
  cases d.take kind with
  | error e => rfl
  | ok v => simp [Except.map, Kind.renumber_of_isPlain h]

end Dyn

/-- The operation with the handle renumbered that it names. -/
def Operation.renumber {P : Type} (ρ : Equiv.Perm Nat) : Operation P → Operation P
  | .await h => .await (h.renumber ρ)
  | .peek h => .peek (h.renumber ρ)
  | op => op

def Translation.renumber (ρ : Equiv.Perm Nat) : Translation :=
  ⟨Dyn.renumber ρ, Operation.renumber ρ⟩

/-- The program under other numbers of handles. -/
def Program.renumber (ρ : Equiv.Perm Nat) (p : Program) : Program :=
  (Translation.renumber ρ).program p

namespace Translation
variable {ρ : Equiv.Perm Nat}

theorem renumber_ok {kind : Kind} (h : kind.isPlain = true) (v : kind.Carrier) :
    (renumber ρ).result (.ok ⟨kind, v⟩) = .ok ⟨kind, v⟩ :=
  congrArg Except.ok (Dyn.renumber_of_isPlain ρ h)

/-- A result without handles is the same under other numbers. -/
theorem renumber_result {kind : Kind} (h : kind.isPlain = true) {result : Except Fault Dyn}
    (hr : ∀ v, result = .ok v → v.kind = kind) : (renumber ρ).result result = result := by
  cases result with
  | error e => rfl
  | ok v =>
    obtain ⟨kind', v⟩ := v
    obtain rfl : kind' = kind := hr _ rfl
    exact renumber_ok h v

/-- Under other numbers a program ends with the same, as far as it is taken without handles. -/
theorem renumber_take {kind : Kind} (h : kind.isPlain = true) (result : Except Fault Dyn) :
    ((renumber ρ).result result >>= Dyn.take kind) = result >>= Dyn.take kind := by
  cases result with
  | error e => rfl
  | ok d => exact Dyn.take_renumber_plain ρ h d

end Translation

namespace Flow
variable {a b : Kind} {ρ : Equiv.Perm Nat}

theorem continuation_renumber {next next' : a.Carrier → Flow b}
    (hn : ∀ v, (next (a.renumber ρ.symm v)).program.renumber ρ = (next' v).program) :
    (Translation.renumber ρ).continuation (continuation next) = continuation next' := by
  funext d
  have htake : ((Dyn.renumber ρ).symm d).take a = (d.take a).map (a.renumber ρ.symm) :=
    Dyn.take_renumber ρ.symm d a
  simp only [Translation.continuation, Translation.renumber, continuation, htake]
  cases d.take a with
  | ok v => exact hn v
  | error e => rfl

/-- A flow is renumbered part by part: what goes on takes a handle by its old number. -/
theorem renumber_andThen {f f' : Flow a} {next next' : a.Carrier → Flow b}
    (hf : f.program.renumber ρ = f'.program)
    (hn : ∀ v, (next (a.renumber ρ.symm v)).program.renumber ρ = (next' v).program) :
    (f.andThen next).program.renumber ρ = (f'.andThen next').program := by
  have hk := continuation_renumber hn
  obtain ⟨p⟩ := f
  obtain ⟨p'⟩ := f'
  obtain rfl : p.renumber ρ = p' := hf
  cases p with
  | done v =>
    have happly := (Translation.renumber ρ).continuation_apply (continuation next) v
    rw [hk] at happly
    exact happly.symm
  | throw e => rfl
  | step op => exact congrArg (Program.bind _) hk
  | bind p k => exact congrArg (Program.bind _) hk

theorem renumber_fork {f : Flow .json} (hf : f.program.renumber ρ = f.program) :
    (Flow.fork f).program.renumber ρ = (Flow.fork f).program :=
  congrArg (fun p => Program.step (.fork p)) hf

theorem renumber_await (h : Handle) :
    (Flow.await (Kind.handle.renumber ρ.symm h)).program.renumber ρ = (Flow.await h).program :=
  congrArg (fun h => Program.step (.await h))
    (congrFun (Kind.renumber_comp ρ.apply_symm_apply .handle) h)

end Flow

end Workflow
