/-! Values that several references share. -/
namespace Workflow

/-- Values, and the references to them. -/
structure Shared (α : Type) where
  values : Array α
  refs : Array Nat

namespace Shared
variable {α : Type}

/-- One value with one reference. -/
def single (a : α) : Shared α := ⟨#[a], #[0]⟩

def get? (s : Shared α) (ref : Nat) : Option α := s.refs[ref]?.bind (s.values[·]?)

/-- Changes the value behind a reference, which all its references see. -/
def modify (s : Shared α) (ref : Nat) (f : α → α) : Shared α :=
  match s.refs[ref]? with
  | some i => { s with values := s.values.modify i f }
  | none => s

/-- A new value and its reference. -/
def new (s : Shared α) (a : α) : Shared α × Nat :=
  (⟨s.values.push a, s.refs.push s.values.size⟩, s.refs.size)

/-- One more reference to the value behind a reference. -/
def clone (s : Shared α) (ref : Nat) : Shared α × Nat :=
  match s.refs[ref]? with
  | some i => ({ s with refs := s.refs.push i }, s.refs.size)
  | none => (s, s.refs.size)

/-- Two references lead to one value. -/
def same (s : Shared α) (a b : Nat) : Bool := s.refs[a]? = s.refs[b]?

end Shared

end Workflow
