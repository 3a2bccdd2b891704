import Gofusion.Utils.Panic
import Gofusion.Utils.Text

/-!
# Contexts that travel with a message

`context/context.go`.  `Flatten` collects the languages, the user, the trace, the cron task
and the deadline of a context.  They travel as the gob encoding of `_context` in a payload,
or as the metadata of a message.

A context is modelled by what its getters return.  A `nil` slice of languages and an empty
one are both `[]`, as gob does not tell them apart.
-/

namespace Gofusion.Context

open Gofusion.Utils

/-- `time.Time`: the instant in nanoseconds and the name of the location. -/
structure Time where
  instant : Int
  location : Text
deriving DecidableEq, Repr

/-- The texts of times.  `format` is `Format(time.RFC3339Nano)`, and `parse` is
`time.LoadLocation` with `time.ParseInLocation`. -/
structure TimeTexts where
  format : Time → Text
  parse : (text location : Text) → Option Time

/-- What the getters return for a context. -/
structure Fields where
  langs : List Text := []
  userID : Text := []
  traceID : Text := []
  cronTaskID : Text := []
  cronTaskName : Text := []
  deadline : Option Time := none
deriving DecidableEq, Repr

def notBlank (s : Text) : Option Text := if isStrBlank s then none else some s

/-- What of a context is propagated.  Blank texts are not. -/
structure Propagated where
  langs : List Text
  userID : Option Text
  traceID : Option Text
  cronTaskID : Option Text
  cronTaskName : Option Text
  deadline : Option Int
deriving DecidableEq, Repr

def Fields.propagated (c : Fields) : Propagated where
  langs := c.langs
  userID := notBlank c.userID
  traceID := notBlank c.traceID
  cronTaskID := notBlank c.cronTaskID
  cronTaskName := notBlank c.cronTaskName
  deadline := c.deadline.map Time.instant

/-! ## `_context` -/

/-- `_context`. -/
structure Flat where
  langs : List Text := []
  userID : Option Text := none
  traceID : Option Text := none
  cronTaskID : Option Text := none
  cronTaskName : Option Text := none
  deadline : Option Text := none
  deadlineLocation : Option Text := none
deriving DecidableEq, Repr

section

variable (times : TimeTexts)

def flatten (c : Fields) : Flat where
  langs := c.langs
  userID := notBlank c.userID
  traceID := notBlank c.traceID
  cronTaskID := notBlank c.cronTaskID
  cronTaskName := notBlank c.cronTaskName
  deadline := c.deadline.map times.format
  deadlineLocation := c.deadline.map Time.location

def parseDeadline (text location : Option Text) : Except Panic (Option Time) :=
  match text, location with
  | none, _ => .ok none
  | some _, none => .error .nilDereference
  | some text, some location =>
    match times.parse text location with
    | none => .error .must
    | some d => .ok (some d)

/-- `_context.unmarshal`. -/
def Flat.unmarshal (c : Flat) : Except Panic Fields :=
  (parseDeadline times c.deadline c.deadlineLocation).map fun deadline =>
    { langs := c.langs
      userID := c.userID.getD []
      traceID := c.traceID.getD []
      cronTaskID := c.cronTaskID.getD []
      cronTaskName := c.cronTaskName.getD []
      deadline }

end

/-- The gob encoding of `_context`.  It is never empty, and a slice has less than `2 ^ 63`
elements. -/
structure Gob where
  marshal : Flat → List UInt8
  unmarshal : List UInt8 → Option Flat
  marshal_ne_nil : ∀ c, marshal c ≠ []
  length_lt : ∀ c, (marshal c).length < 2 ^ 63

/-- The gob encoding of one value. -/
def gobOf (c : Flat) : Gob where
  marshal _ := [0]
  unmarshal _ := some c
  marshal_ne_nil _ := nofun
  length_lt _ := by decide

/-- `New` with the option `Context`. -/
def newContext (times : TimeTexts) (gob : Gob) (bs : List UInt8) : Except Panic Fields :=
  match gob.unmarshal bs with
  | none => .error .must
  | some c => c.unmarshal times

/-! ## Metadata -/

/-- The metadata of a message.  A missing key reads as an empty text. -/
structure Metadata where
  langs : List Text := []
  userID : Text := []
  traceID : Text := []
  cronTaskID : Text := []
  cronTaskName : Text := []
  deadline : Text := []
  deadlineLocation : Text := []
deriving DecidableEq, Repr

def watermillMetadata (times : TimeTexts) (c : Fields) : Metadata where
  langs := c.langs
  userID := (notBlank c.userID).getD []
  traceID := (notBlank c.traceID).getD []
  cronTaskID := (notBlank c.cronTaskID).getD []
  cronTaskName := (notBlank c.cronTaskName).getD []
  deadline := (c.deadline.map times.format).getD []
  deadlineLocation := (c.deadline.map Time.location).getD []

/-- `New` with the option `Watermill`. -/
def Metadata.unmarshal (times : TimeTexts) (m : Metadata) : Except Panic Fields :=
  let deadline := (notBlank m.deadline).map fun _ => m.deadline
  (parseDeadline times deadline (some m.deadlineLocation)).map fun deadline =>
    { langs := m.langs
      userID := (notBlank m.userID).getD []
      traceID := (notBlank m.traceID).getD []
      cronTaskID := (notBlank m.cronTaskID).getD []
      cronTaskName := (notBlank m.cronTaskName).getD []
      deadline }

/-! ## Propagation -/

/-- The deadline of a context is read back as the same instant. -/
def Fields.DeadlineKept (times : TimeTexts) (c : Fields) : Prop :=
  ∀ d, c.deadline = some d →
    ∃ d', times.parse (times.format d) d.location = some d' ∧ d'.instant = d.instant

/-- The location of a deadline is known on the other side. -/
def Fields.DeadlineReads (times : TimeTexts) (c : Fields) : Prop :=
  ∀ d, c.deadline = some d → notBlank (times.format d) = none ∨
    (times.parse (times.format d) d.location).isSome

section

variable {times : TimeTexts} {c : Fields}

theorem notBlank_of_blank (h : isStrBlank s) : notBlank s = none := if_pos h

theorem notBlank_of_not_blank (h : ¬isStrBlank s) : notBlank s = some s := if_neg h

@[simp] theorem notBlank_getD (s : Text) : notBlank ((notBlank s).getD []) = notBlank s := by
  by_cases h : isStrBlank s
  · rw [notBlank_of_blank h]
    rfl
  · rw [notBlank_of_not_blank h, Option.getD_some, notBlank_of_not_blank h]

/-- The gob encoding keeps a context exactly if it keeps the deadline. -/
theorem flatten_unmarshal_iff :
    (∃ c', (flatten times c).unmarshal times = .ok c' ∧ c'.propagated = c.propagated) ↔
      c.DeadlineKept times := by
  obtain ⟨langs, userID, traceID, cronTaskID, cronTaskName, deadline⟩ := c
  cases deadline with
  | none =>
    refine iff_of_true ⟨_, rfl, ?_⟩ nofun
    simp [flatten, Fields.propagated]
  | some d =>
    simp only [Fields.DeadlineKept, Option.some.injEq, forall_eq']
    cases hparse : times.parse (times.format d) d.location with
    | none => simp [Flat.unmarshal, flatten, parseDeadline, hparse, Except.map]
    | some d' => simp [Flat.unmarshal, flatten, parseDeadline, hparse, Except.map, Fields.propagated]

/-- A message with the metadata of a context gets a context exactly when the location of the
deadline is known. -/
theorem metadata_unmarshal_iff :
    (∃ c', (watermillMetadata times c).unmarshal times = .ok c') ↔ c.DeadlineReads times := by
  obtain ⟨langs, userID, traceID, cronTaskID, cronTaskName, deadline⟩ := c
  cases deadline with
  | none => exact iff_of_true ⟨_, rfl⟩ nofun
  | some d =>
    simp only [Fields.DeadlineReads, Option.some.injEq, forall_eq']
    cases hblank : notBlank (times.format d) with
    | none => simp [Metadata.unmarshal, watermillMetadata, hblank, parseDeadline, Except.map]
    | some s =>
      cases hparse : times.parse (times.format d) d.location with
      | none => simp [Metadata.unmarshal, watermillMetadata, hblank, parseDeadline, hparse, Except.map]
      | some d' =>
        simp [Metadata.unmarshal, watermillMetadata, hblank, parseDeadline, hparse, Except.map]

end

end Gofusion.Context
