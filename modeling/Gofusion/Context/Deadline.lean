import Gofusion.Context.Propagation
import Gofusion.Lib.Rfc3339

/-!
# Deadlines in any location

A deadline travels as a text and as the name of its location.  The text holds the offset.  Still
both decoders look the name up with `time.LoadLocation`, and `utils.Must` panics if it is not
found.  The name of a fixed zone is any text.
-/

namespace Gofusion.Context

open Gofusion.Lib Gofusion.Utils

/-- The locations a program knows: the names in the time zone database, the offset of a
location at a time in seconds, and whether the `time` package checks the hours of an offset. -/
structure Zones where
  database : Text → Bool
  offset : Text → Int → Int
  checked : Bool

/-- `time.LoadLocation`: the name of the location if there is one. -/
def Zones.loadLocation (z : Zones) (name : Text) : Option Text :=
  if name = [] ∨ name = "UTC".toList then some "UTC".toList
  else if name = "Local".toList ∨ z.database name then some name
  else none

/-- `time.LoadLocation` and `time.ParseInLocation`.  A time with another offset than the
location has gets a fixed zone without a name. -/
def Zones.parse (z : Zones) (text location : Text) : Option Time := do
  let location ← z.loadLocation location
  let (instant, offset) ← Rfc3339.parse z.checked text
  match offset with
  | none => return ⟨instant, "UTC".toList⟩
  | some offset =>
    return ⟨instant, if z.offset location (instant / 1000000000) = offset then location else []⟩

/-- The texts of times, where `offset` is the offset of a time's location at this time. -/
def Zones.times (z : Zones) (offset : Time → Int) : TimeTexts where
  format t := Rfc3339.format t.instant (offset t)
  parse := z.parse

/-- A context with all ids and a language. -/
structure Fields.Full (c : Fields) : Prop where
  langs : c.langs ≠ []
  userID : ¬isStrBlank c.userID
  traceID : ¬isStrBlank c.traceID
  cronTaskID : ¬isStrBlank c.cronTaskID
  cronTaskName : ¬isStrBlank c.cronTaskName

/-- Another context has the same ids, languages and instant of the deadline. -/
def Fields.Same (c c' : Fields) : Prop :=
  { c' with deadline := none } = { c with deadline := none } ∧
    c'.deadline.map Time.instant = c.deadline.map Time.instant

/-- Both carriers give the same context, which has everything of the one that was sent. -/
def Fields.Lossless (times : TimeTexts) (gob : Gob) (c : Fields) : Prop :=
  ∃ c', newContext times gob (gob.marshal (flatten times c)) = .ok c' ∧
    (watermillMetadata times c).unmarshal times = .ok c' ∧ c.Same c'

/-- The deadline has a location that can be loaded and a text that can be read. -/
def Fields.DeadlineTravels (z : Zones) (offset : Time → Int) (c : Fields) : Prop :=
  ∀ d, c.deadline = some d → (z.loadLocation d.location).isSome ∧
    Rfc3339.YearFits d.instant (offset d) ∧
    (offset d).natAbs / 3600 < Rfc3339.hourLimit z.checked

/-! ## Texts of deadlines -/

theorem format_not_blank (instant offset : Int) :
    isStrBlank (Rfc3339.format instant offset) = false := by
  simp only [isStrBlank, Rfc3339.format, List.all_append, List.all_cons]
  simp [show isSpace '-' = false by decide]

section

variable {z : Zones} {offset : Time → Int}

/-- When a deadline is read back from its text. -/
theorem parse_format_iff {d : Time} (hminutes : offset d % 60 = 0) :
    (∃ d', (z.times offset).parse ((z.times offset).format d) d.location = some d' ∧
        d'.instant = d.instant) ↔
      (z.loadLocation d.location).isSome ∧ Rfc3339.YearFits d.instant (offset d) ∧
        (offset d).natAbs / 3600 < Rfc3339.hourLimit z.checked := by
  simp only [Zones.times, Zones.parse, Rfc3339.parse_format hminutes]
  cases hload : z.loadLocation d.location with
  | none => simp
  | some _ =>
    by_cases hreads : Rfc3339.YearFits d.instant (offset d) ∧
        (offset d).natAbs / 3600 < Rfc3339.hourLimit z.checked
    · rw [if_pos hreads]
      refine iff_of_true ?_ ⟨rfl, hreads⟩
      split <;> exact ⟨_, rfl, rfl⟩
    · rw [if_neg hreads]
      exact iff_of_false (by simp) fun h => hreads h.2

end

/-! ## Both carriers -/

section

variable {times : TimeTexts} {gob : Gob} {c : Fields}

theorem getD_notBlank (h : ¬isStrBlank s) : (notBlank s).getD [] = s := by
  rw [notBlank_of_not_blank h, Option.getD_some]

/-- A full context comes back with the deadline that is read from its `_context`. -/
theorem flatten_unmarshal_full (h : c.Full) :
    (flatten times c).unmarshal times =
      (parseDeadline times (c.deadline.map times.format) (c.deadline.map Time.location)).map
        fun deadline => { c with deadline } := by
  simp only [Flat.unmarshal, flatten, getD_notBlank h.userID, getD_notBlank h.traceID,
    getD_notBlank h.cronTaskID, getD_notBlank h.cronTaskName]

/-- The metadata give the same context, if the text of a deadline is not blank. -/
theorem metadata_unmarshal_full (h : c.Full)
    (htext : ∀ d, c.deadline = some d → isStrBlank (times.format d) = false) :
    (watermillMetadata times c).unmarshal times = (flatten times c).unmarshal times := by
  rw [flatten_unmarshal_full h]
  simp only [Metadata.unmarshal, watermillMetadata, getD_notBlank h.userID,
    getD_notBlank h.traceID, getD_notBlank h.cronTaskID, getD_notBlank h.cronTaskName]
  cases hd : c.deadline with
  | none => rfl
  | some d =>
    have hnot : notBlank (times.format d) = some (times.format d) :=
      notBlank_of_not_blank (by simp [htext d hd])
    simp only [Option.map_some, Option.getD_some, hnot]

/-- Nothing but the deadline can be lost. -/
theorem lossless_iff_deadlineKept (h : c.Full)
    (hgob : gob.unmarshal (gob.marshal (flatten times c)) = some (flatten times c))
    (htext : ∀ d, c.deadline = some d → isStrBlank (times.format d) = false) :
    c.Lossless times gob ↔ c.DeadlineKept times := by
  have hflat : newContext times gob (gob.marshal (flatten times c)) =
      (flatten times c).unmarshal times := by simp only [newContext, hgob]
  simp only [Fields.Lossless, hflat, metadata_unmarshal_full h htext, flatten_unmarshal_full h,
    Fields.DeadlineKept]
  cases hd : c.deadline with
  | none => exact iff_of_true ⟨_, rfl, rfl, rfl, by simp [hd]⟩ (by simp)
  | some d =>
    simp only [Option.map_some, parseDeadline, Option.some.injEq, forall_eq']
    cases hparse : times.parse (times.format d) d.location with
    | none => simp [Except.map]
    | some d' => simp [Except.map, Fields.Same, hd]

end

/-- Both carriers are lossless exactly if the location of the deadline can be loaded by its
name, the year on its clock has at most four digits, and the hours of its offset can be
read. -/
theorem propagation_lossless_iff (z : Zones) (offset : Time → Int) (gob : Gob) (c : Fields)
    (hfull : c.Full)
    (hgob : gob.unmarshal (gob.marshal (flatten (z.times offset) c)) =
      some (flatten (z.times offset) c))
    (hminutes : ∀ d, c.deadline = some d → offset d % 60 = 0) :
    c.Lossless (z.times offset) gob ↔ c.DeadlineTravels z offset := by
  rw [lossless_iff_deadlineKept hfull hgob fun d _ => format_not_blank d.instant (offset d)]
  exact forall₂_congr fun d hd => parse_format_iff (hminutes d hd)

/-! ## A deadline in a fixed zone -/

/-- A program with two zones of the database. -/
def someZones : Zones where
  database name := name ∈ ["Asia/Shanghai".toList, "Europe/London".toList]
  offset name _ := if name = "Asia/Shanghai".toList then 28800 else 0
  checked := true

/-- A context with a deadline on the first of January 2030, at eight in the morning in China. -/
def newYear (location : Text) : Fields where
  langs := ["zh".toList]
  userID := "u".toList
  traceID := "t".toList
  cronTaskID := "c".toList
  cronTaskName := "n".toList
  deadline := some ⟨1893456000000000000, location⟩

theorem newYear_full (location : Text) : (newYear location).Full where
  langs := nofun
  userID := (by decide : ¬isStrBlank "u".toList)
  traceID := (by decide : ¬isStrBlank "t".toList)
  cronTaskID := (by decide : ¬isStrBlank "c".toList)
  cronTaskName := (by decide : ¬isStrBlank "n".toList)

theorem newYear_shanghai_lossless :
    (newYear "Asia/Shanghai".toList).Lossless (someZones.times fun _ => 28800)
      (gobOf (flatten (someZones.times fun _ => 28800) (newYear "Asia/Shanghai".toList))) := by
  refine (propagation_lossless_iff _ _ _ _ (newYear_full _) rfl fun _ _ => by decide).mpr ?_
  rintro d ⟨rfl⟩
  decide

/-- The same deadline in the zone `time.FixedZone("CST", 8*60*60)` panics on both carriers. -/
theorem newYear_fixedZone_not_lossless :
    ¬(newYear "CST".toList).Lossless (someZones.times fun _ => 28800)
      (gobOf (flatten (someZones.times fun _ => 28800) (newYear "CST".toList))) := by
  rintro ⟨c', hflat, -⟩
  have hpanic : newContext (someZones.times fun _ => 28800)
      (gobOf (flatten (someZones.times fun _ => 28800) (newYear "CST".toList))) [0] =
        .error .must := rfl
  exact nomatch hpanic.symm.trans hflat

end Gofusion.Context
