import Crosswalk.Diagnostic

/-!
Why a step of a conversion gives no result, and computations that keep a log of what happened up to
that point.
-/

namespace Crosswalk

inductive Fault where
  /-- A value of another kind was needed. -/
  | wrongKind
  /-- A value does not have the part that was asked for. -/
  | noSuchPart
  /-- A list is shorter than needed. -/
  | tooShort
  /-- A mapping lacks an entry that was needed. -/
  | noSuchEntry
  /-- A text is not a number, or an integer has too many digits to be read or written. -/
  | unreadableNumber
  /-- A target does not define the form that was asked for. -/
  | notDefined
  /-- A value violates a rule of this program. -/
  | invalid (message : String)
  /-- The document as a whole is refused. -/
  | refused (diagnostic : Diagnostic)
deriving Repr, DecidableEq

namespace Fault

/-- The word for a fault in the report of a failed conversion. -/
def label : Fault → String
  | .wrongKind => "TypeError"
  | .noSuchPart => "AttributeError"
  | .tooShort => "IndexError"
  | .noSuchEntry => "KeyError"
  | .unreadableNumber => "ValueError"
  | .notDefined => "NotImplementedError"
  | .invalid _ => "ValueError"
  | .refused _ => "ConversionError"

/-- The diagnostic with which a fault ends a conversion. -/
def diagnostic : Fault → Diagnostic
  | .refused d => d
  | f => .conversionFailed f.label

end Fault

/-- A value as text. -/
def Value.printed (v : Value) : Except Fault String :=
  if v.hasText then .ok v.display else .error .unreadableNumber

theorem Value.printed_int {i : Int} (h : (decimalDigits i.natAbs).length ≤ digitLimit) :
    (Value.int i).printed = .ok (intText i) :=
  if_pos (Value.hasText_int h)

/-- A result together with what was recorded on the way to it, also if the way ended early. -/
structure Logged (ω α : Type) where
  result : Except Fault α
  log : List ω

namespace Logged

variable {ω α β : Type}

def pure (a : α) : Logged ω α := ⟨.ok a, []⟩

def bind (x : Logged ω α) (f : α → Logged ω β) : Logged ω β :=
  match x.result with
  | .ok a =>
    let y := f a
    ⟨y.result, x.log ++ y.log⟩
  | .error e => ⟨.error e, x.log⟩

instance : Monad (Logged ω) where
  pure := Logged.pure
  bind := Logged.bind

def record (entry : ω) : Logged ω Unit := ⟨.ok (), [entry]⟩

def fail (f : Fault) : Logged ω α := ⟨.error f, []⟩

/-- A result that records nothing. -/
def lift (x : Except Fault α) : Logged ω α := ⟨x, []⟩

@[simp] theorem result_pure (a : α) : (Pure.pure a : Logged ω α).result = .ok a := rfl

@[simp] theorem log_pure (a : α) : (Pure.pure a : Logged ω α).log = [] := rfl

instance : LawfulMonad (Logged ω) := LawfulMonad.mk' (Logged ω)
  (fun x => by
    obtain ⟨r, l⟩ := x
    cases r <;> simp [Functor.map, Logged.bind, Logged.pure])
  (fun _ _ => by simp [Bind.bind, Pure.pure, Logged.bind, Logged.pure])
  (fun x f g => by
    obtain ⟨r, l⟩ := x
    cases r with
    | error e => rfl
    | ok a =>
      simp only [Bind.bind, Logged.bind]
      cases (f a).result <;> simp [List.append_assoc])

@[simp] theorem result_lift (x : Except Fault α) : (lift x : Logged ω α).result = x := rfl

@[simp] theorem log_lift (x : Except Fault α) : (lift x : Logged ω α).log = [] := rfl

@[simp] theorem result_record (entry : ω) : (record entry).result = .ok () := rfl

@[simp] theorem log_record (entry : ω) : (record entry).log = [entry] := rfl

@[simp] theorem result_fail (e : Fault) : (fail e : Logged ω α).result = .error e := rfl

@[simp] theorem log_fail (e : Fault) : (fail e : Logged ω α).log = [] := rfl

theorem log_bind {x : Logged ω α} {a : α} (h : x.result = .ok a) (f : α → Logged ω β) :
    (x >>= f).log = x.log ++ (f a).log := by
  obtain ⟨r, l⟩ := x
  cases h
  rfl

theorem result_map (g : α → β) (x : Logged ω α) : (g <$> x).result = x.result.map g := by
  obtain ⟨r, l⟩ := x
  cases r <;> rfl

theorem log_map (g : α → β) (x : Logged ω α) : (g <$> x).log = x.log := by
  obtain ⟨r, l⟩ := x
  cases r
  · rfl
  · exact List.append_nil l

theorem map_lift (g : α → β) (x : Except Fault α) :
    g <$> (lift x : Logged ω α) = lift (x.map g) := by
  cases x <;> rfl

theorem map_fail (g : α → β) (e : Fault) : g <$> (fail e : Logged ω α) = fail e := rfl

theorem lift_ok (a : α) : (lift (.ok a) : Logged ω α) = Pure.pure a := rfl

end Logged

theorem result_bind_eq_ok {ω α β : Type} {x : Logged ω α} {f : α → Logged ω β} {b : β} :
    (x >>= f).result = .ok b ↔ ∃ a, x.result = .ok a ∧ (f a).result = .ok b := by
  obtain ⟨r, l⟩ := x
  cases r <;> simp [Bind.bind, Logged.bind]

theorem bind_eq_ok {α β : Type} {x : Except Fault α} {f : α → Except Fault β} {b : β} :
    x >>= f = .ok b ↔ ∃ a, x = .ok a ∧ f a = .ok b := by
  cases x <;> simp [Bind.bind, Except.bind]

theorem map_eq_ok {α β : Type} {x : Except Fault α} {f : α → β} {b : β} :
    x.map f = .ok b ↔ ∃ a, x = .ok a ∧ f a = b := by
  cases x <;> simp [Except.map]

end Crosswalk
