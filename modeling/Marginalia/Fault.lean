/-
Marginalia.Fault — why an operation as a whole gives no result, and how
operations report.

`Fault` joins the causes of all parts of the library. An `Outcome` is what an
operation reported on the way, in order, and how it ended: the notices stay
when it ends with a fault.
-/
import Marginalia.Comment.Basic
import Marginalia.Notice
import Marginalia.Settings.Read

namespace Marginalia

/-- Why a settings file gives no settings. -/
inductive LoadError where
  /-- The file or directory that was named does not exist. -/
  | missing (path : Text)
  /-- The file cannot be opened. -/
  | disk (path : Text) (error : DiskError)
  /-- The file is not UTF-8. -/
  | encoding (refusal : Utf8.Refusal)
  /-- The file is not YAML. -/
  | notYaml (path : Text)
  /-- A quoted scalar of the file names a character that does not exist. -/
  | noSuchCharacter (code : Nat)
  /-- A scalar of the file has no value. -/
  | scalar (error : Yaml.ScalarError)
  /-- The file says something else than settings. -/
  | settings (path : Text) (error : SettingsError)
  deriving Repr, DecidableEq

/-- The position of a refused sequence, as messages about a stream give it. -/
def refusalPlace (r : Utf8.Refusal) : Text :=
  if r.length = 1 then
    " byte 0x".toList ++ Quoted.hexDigits 2 r.first.toNat ++ " in position ".toList
      ++ Text.ofNat r.offset
  else
    " bytes in position ".toList ++ Text.ofNat r.offset ++ "-".toList
      ++ Text.ofNat (r.offset + r.length - 1)

/-- The wording of a load error. -/
def LoadError.message : LoadError → Text
  | .missing path => "Config file not found: ".toList ++ path
  | .disk path error => error.describe path
  | .encoding r =>
    "'utf-8' codec can't decode".toList ++ refusalPlace r ++ ": ".toList ++ r.reason.message
  | .notYaml path => "Config ".toList ++ path ++ " is not valid YAML".toList
  | .noSuchCharacter code => Yaml.characterMessage code
  | .scalar error => error.message
  | .settings path error => error.message path

/-- Whether an error means that the settings are wrong. What is left keeps the settings from being
read at all, and ends the program instead of being reported. -/
def LoadError.isInvalid : LoadError → Bool
  | .missing _ | .encoding _ | .notYaml _ | .settings .. => true
  | .disk _ error => error = .noEntry
  | .noSuchCharacter code => code < Yaml.codeLimit
  | .scalar error => error.isInvalid

/-- Why an operation gives no result. -/
inductive Fault where
  | position (error : PositionError)
  | pattern (error : Ignore.PatternError)
  | unknownKind (name : Text)
  /-- A file cannot be read as text. -/
  | unreadable (path : Text) (error : ReadError)
  /-- A path that is opened has a character with the code zero. -/
  | zeroInPath
  /-- A path that is sorted has a character with the code zero. -/
  | zeroInKey
  | load (error : LoadError)
  deriving Repr, DecidableEq

/-- The wording of a fault. -/
def Fault.message : Fault → Text
  | .position error => error.message
  | .pattern error => error.message
  | .unknownKind name => Kind.unknownMessage name
  | .unreadable path error => path ++ ": ".toList ++ error.message
  | .zeroInPath => "embedded null byte".toList
  | .zeroInKey => "embedded null character".toList
  | .load error => error.message

/-- What an operation reported, and how it ended. -/
structure Outcome (α : Type) where
  notices : List Notice
  result : Except Fault α

namespace Outcome

variable {α β : Type}

/-- A result without notices. -/
def done (a : α) : Outcome α := ⟨[], .ok a⟩

/-- A fault without notices. -/
def failed (f : Fault) : Outcome α := ⟨[], .error f⟩

/-- A notice. -/
def note (n : Notice) : Outcome Unit := ⟨[n], .ok ()⟩

/-- Notices. -/
def report (ns : List Notice) : Outcome Unit := ⟨ns, .ok ()⟩

/-- A result that may be a fault. -/
def ofExcept (r : Except Fault α) : Outcome α := ⟨[], r⟩

/-- One operation after another; after a fault nothing follows. -/
def andThen (o : Outcome α) (f : α → Outcome β) : Outcome β :=
  match o.result with
  | .error e => ⟨o.notices, .error e⟩
  | .ok a => ⟨o.notices ++ (f a).notices, (f a).result⟩

instance : Monad Outcome where
  pure := done
  bind := andThen

/-! ## Small facts -/

@[simp] theorem done_andThen (a : α) (f : α → Outcome β) : (done a).andThen f = f a := by
  simp [done, andThen]

theorem andThen_of_ok {o : Outcome α} {f : α → Outcome β} {a : α} (h : o.result = .ok a) :
    o.andThen f = ⟨o.notices ++ (f a).notices, (f a).result⟩ := by
  unfold andThen
  rw [h]

/-- Two operations succeed if the first does and the second does with its result. -/
theorem andThen_eq_ok {o : Outcome α} {f : α → Outcome β} {b : β} :
    (o.andThen f).result = .ok b ↔ ∃ a, o.result = .ok a ∧ (f a).result = .ok b := by
  unfold andThen
  cases o.result with
  | error e => simp
  | ok a => simp

theorem mem_notices_andThen {o : Outcome α} {f : α → Outcome β} {n : Notice}
    (h : n ∈ (o.andThen f).notices) :
    n ∈ o.notices ∨ ∃ a, o.result = .ok a ∧ n ∈ (f a).notices := by
  cases hresult : o.result with
  | error e =>
    simp only [andThen, hresult] at h
    exact .inl h
  | ok a =>
    rw [andThen_of_ok hresult] at h
    exact (List.mem_append.mp h).imp_right fun h => ⟨a, rfl, h⟩

end Outcome

end Marginalia
