import Gofusion.Cache.Basic
import Gofusion.Lib.Format
import Mathlib.Data.List.FinRange

/-!
# The redis provider

`rds.set` and `rds.del` of `cache/redis.go`, with what the server answers to each command.

`set` goes through `utils.Must`, so it panics where it should report a key.  `del` looks for the
text `1` in the rendering of a command, so it never sees that a key still exists.
-/

namespace Gofusion.Cache

open Gofusion.Lib Gofusion.Utils Gofusion.Payload

/-- What `Exec` returns for some commands: a reply or an error for each, and an error if one of
them failed. -/
structure Executed (n : Nat) (α : Type) where
  cmds : Fin n → Except Text α
  err : Option Text
  err_of_failed : ∀ i e, cmds i = .error e → err ≠ none

/-- `rds`, with the answers of the server. -/
structure Rds (O : Type) where
  hasLog : Bool
  execSet : (cmds : List (Text × Data O × Int)) → Executed cmds.length Unit
  doDel : List Text → Except Text Int
  execExists : (keys : List Text) → Executed keys.length Int

def pick {α : Type} (l : List α) (p : Fin l.length → Bool) : List α :=
  ((List.finRange l.length).filter p).map l.get

namespace Rds

variable {O : Type} (r : Rds O)

def setCmds (kvs : GoMap Text (Data O)) (expired : GoMap Text Int) : List (Text × Data O × Int) :=
  kvs.entries.map fun e => (e.1, e.2, (expired.lookup e.1).getD 0)

/-- The keys whose command failed. -/
def unset (cmds : List (Text × Data O × Int)) : List Text :=
  (pick cmds fun i => !((r.execSet cmds).cmds i).isOk).map Prod.fst

/-- `rds.set`. -/
def set (kvs : GoMap Text (Data O)) (expired : GoMap Text Int) : Except Panic (List Text) :=
  let cmds := setCmds kvs expired
  match (r.execSet cmds).err with
  | some _ => .error .must
  | none => .ok (r.unset cmds)

/-- `String` of an `EXISTS` command with its reply. -/
def existsString (key : Text) (n : Int) : Text :=
  "exists ".toList ++ key ++ ": ".toList ++ Format.padInt false 0 n

/-- One key in the loop of `rds.del`. -/
def judge (key : Text) (failure : List Text) : Except Text Int → Except Panic (List Text)
  | .error _ => if r.hasLog then .ok (failure ++ [key]) else .error .nilDereference
  | .ok n => .ok (if existsString key n = ['1'] then failure ++ [key] else failure)

/-- `rds.del`.  On an error the number of deleted keys is 0. -/
def del (keys : List Text) : Except Panic (List Text) :=
  if (r.doDel keys).toOption.getD 0 = keys.length then .ok []
  else
    let exec := r.execExists keys
    if exec.err.isSome && r.hasLog then .ok keys
    else (List.finRange keys.length).foldlM
      (fun failure i => r.judge (keys.get i) failure (exec.cmds i)) []

/-- A key still exists, or it is not known whether it does. -/
def remains : Except Text Int → Bool
  | .error _ => true
  | .ok n => 0 < n

/-- What `rds.del` should report. -/
def undeleted (keys : List Text) : List Text :=
  if (r.doDel keys).toOption.getD 0 = keys.length then []
  else pick keys fun i => remains ((r.execExists keys).cmds i)

end Rds

theorem pick_eq_nil {α : Type} {l : List α} {p : Fin l.length → Bool} :
    pick l p = [] ↔ ∀ i, p i = false := by
  simp [pick, List.filter_eq_nil_iff]

theorem pick_eq_self {α : Type} {l : List α} {p : Fin l.length → Bool} :
    l = pick l p ↔ ∀ i, p i = true := by
  constructor
  · intro h i
    have hlength := congrArg List.length h
    rw [pick, List.length_map] at hlength
    have hall : (List.finRange l.length).filter p = List.finRange l.length :=
      List.filter_sublist.eq_of_length (by rw [← hlength, List.length_finRange])
    exact List.filter_eq_self.mp hall i (List.mem_finRange i)
  · intro h
    rw [pick, List.filter_eq_self.mpr fun i _ => h i, List.map_get_finRange]

/-- A loop whose steps leave the state or fail. -/
theorem foldlM_eq {α ι ε : Type} {f : α → ι → Except ε α} {a : α} {e : ε} {l : List ι}
    (h : ∀ i ∈ l, f a i = .ok a ∨ f a i = .error e) :
    l.foldlM f a = .ok a ∧ (∀ i ∈ l, f a i = .ok a) ∨
      l.foldlM f a = .error e ∧ ∃ i ∈ l, f a i = .error e := by
  induction l with
  | nil => exact .inl ⟨rfl, nofun⟩
  | cons i l ih =>
    rw [List.forall_mem_cons] at h
    rw [List.foldlM_cons]
    rcases h.1 with hi | hi
    · rw [hi]
      rcases ih h.2 with ⟨hl, hall⟩ | ⟨hl, j, hj, herr⟩
      · exact .inl ⟨hl, List.forall_mem_cons.mpr ⟨hi, hall⟩⟩
      · exact .inr ⟨hl, j, List.mem_cons_of_mem _ hj, herr⟩
    · exact .inr ⟨by rw [hi]; rfl, i, List.mem_cons_self, hi⟩

namespace Rds

variable {O : Type} (r : Rds O)

/-- When `del` reports the keys that were not deleted. -/
theorem del_iff (keys : List Text) : r.del keys = .ok (r.undeleted keys) ↔
    (r.doDel keys).toOption.getD 0 = keys.length ∨ ∀ i, remains ((r.execExists keys).cmds i) =
      ((r.execExists keys).err.isSome && r.hasLog) := by
  rw [del, undeleted]
  by_cases hcount : (r.doDel keys).toOption.getD 0 = keys.length
  · simp [hcount]
  rw [if_neg hcount, if_neg hcount, or_iff_right hcount]
  cases hall : (r.execExists keys).err.isSome && r.hasLog with
  | true => simp [hall, pick_eq_self]
  | false =>
    -- the rendering of a command is never `1`, so only a failed command stops the loop
    have hjudge : ∀ i ∈ List.finRange keys.length,
        r.judge (keys.get i) [] ((r.execExists keys).cmds i) = .ok [] ∨
          r.judge (keys.get i) [] ((r.execExists keys).cmds i) = .error .nilDereference := by
      intro i _
      cases hi : (r.execExists keys).cmds i with
      | ok n => exact .inl rfl
      | error e =>
        have herr := (r.execExists keys).err_of_failed i e hi
        rw [Option.isSome_iff_ne_none.mpr herr, Bool.true_and] at hall
        exact .inr (by simp [judge, hall])
    simp only [hall, Bool.false_eq_true, if_false, ← pick_eq_nil]
    rcases foldlM_eq
        (f := fun failure i => r.judge (keys.get i) failure ((r.execExists keys).cmds i)) hjudge with ⟨hloop, -⟩ | ⟨hloop, i, -, hi⟩
    · rw [hloop, Except.ok.injEq, eq_comm]
    · rw [hloop, pick_eq_nil]
      refine iff_of_false nofun fun hnone => ?_
      have hi' := hnone i
      cases hcmd : (r.execExists keys).cmds i with
      | ok n => rw [hcmd] at hi; cases hi
      | error e => rw [hcmd] at hi'; cases hi'

end Rds

/-- `set` reports the keys that failed exactly if `Exec` has no error, so only if none failed.
`del` does exactly if every key was deleted at once, or if after an error with a logger every key
remains or may remain, or else none does. -/
theorem redis_reports_failed_iff {O : Type} (r : Rds O) :
    (∀ kvs expired, r.set kvs expired = .ok (r.unset (Rds.setCmds kvs expired)) ↔
      (r.execSet (Rds.setCmds kvs expired)).err = none) ∧
    ∀ keys, r.del keys = .ok (r.undeleted keys) ↔
      (r.doDel keys).toOption.getD 0 = keys.length ∨
      ∀ i, Rds.remains ((r.execExists keys).cmds i) =
        ((r.execExists keys).err.isSome && r.hasLog) := by
  refine ⟨fun kvs expired => ?_, r.del_iff⟩
  rw [Rds.set]
  cases herr : (r.execSet (Rds.setCmds kvs expired)).err <;> simp

/-- A server on which every `SET` fails and no key is deleted. -/
def stubborn : Rds Unit where
  hasLog := false
  execSet _ := ⟨fun _ => .error ['e'], some ['e'], fun _ _ _ => nofun⟩
  doDel _ := .ok 0
  execExists _ := ⟨fun _ => .ok 1, none, nofun⟩

/-- `set` panics, and `del` reports nothing. -/
theorem stubborn_unreported :
    stubborn.set (AList.singleton ['a'] (.string [])) ∅ = .error .must ∧
      stubborn.del [['a']] = .ok [] ∧ stubborn.undeleted [['a']] = [['a']] := by
  decide

end Gofusion.Cache
