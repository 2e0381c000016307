import ChudDB.Cluster.TabletProposal

/-! # Settling of ranges

`updateSettled` counts for each range the ticks since the range, as it is, came to the local node. A
range that is missing from one snapshot starts over, and so does one with another generation or
proposal. So the count is the number of the latest snapshots in a row that show the range
(`settled_after`), and what a tick changes has been shown in all of the last `SettlingTicks`
snapshots (`attempt_settled`). Snapshots, alive nodes and scans may be anything at each tick. -/

namespace ChudDB.Cluster
open Lib

/-- What a tick of the scheduler finds. -/
structure Observation where
  snapshot : RangeMap
  candidates : List NodeID
  estimate : Bytes → Bytes → Option Int
  boundary : Bytes → Bytes → Option Bytes

namespace Scheduler
variable {s : Scheduler} {m : RangeMap} {c : Change} {i : Nat} {r : Range}

/-- The scheduler with the scans of a tick. -/
def observe (s : Scheduler) (o : Observation) : Scheduler :=
  { s with estimate := o.estimate, boundary := o.boundary }

/-- The scheduler after the ticks that find these, oldest first. -/
def after (s : Scheduler) (os : List Observation) : Scheduler :=
  os.foldl (fun s o => ((s.observe o).tick o.snapshot o.candidates).1) s

theorem after_concat (s : Scheduler) (os : List Observation) (o : Observation) :
    s.after (os ++ [o]) = ((s.after os).observe o).updateSettled o.snapshot := by
  rw [after, List.foldl_append]
  rfl

theorem cfg_after (s : Scheduler) (os : List Observation) : (s.after os).cfg = s.cfg := by
  induction os using List.reverseRecOn with
  | nil => rfl
  | append_singleton os o ih =>
    rw [after_concat]
    exact ih

/-- The counter of a range is the number of the latest snapshots in a row that show it. -/
theorem settled_after (hnew : ∀ key, s.settled key = 0) (os : List Observation)
    (key : SettledRange) :
    (s.after os).settled key =
      (os.reverse.takeWhile fun o => o.snapshot.Shows s.cfg.nodeID key).length := by
  induction os using List.reverseRecOn with
  | nil => exact hnew key
  | append_singleton os o ih =>
    have hnode : ((s.after os).observe o).cfg = s.cfg := cfg_after s os
    rw [after_concat, settled_updateSettled, hnode, List.reverse_concat, List.takeWhile_cons]
    split
    · rename_i hshows
      rw [decide_eq_true hshows, if_pos rfl, List.length_cons, Nat.cast_succ, ← ih]
      rfl
    · rename_i hshows
      rw [decide_eq_false hshows]
      rfl

theorem ready_of_attempt (h : s.attempt m i = some c) (hr : r ∈ c.ranges m) : s.Ready r := by
  rcases attempt_cases h with ⟨rfl, current, -, hcurrent, hready, -⟩ |
    ⟨rfl, left, right, -, -, hleft, hright, hready, hready', -⟩
  · rw [ranges_split hcurrent] at hr
    exact List.mem_singleton.mp hr ▸ hready
  · rw [ranges_merge hleft hright] at hr
    rcases List.mem_pair.mp hr with rfl | rfl
    · exact hready
    · exact hready'

theorem mem_of_mem_changeRanges (hr : r ∈ c.ranges m) : r ∈ m.ranges :=
  List.mem_of_mem_drop (List.mem_of_mem_take hr)

/-- A tick attempts to split a range or to merge two only if the snapshot of this tick and those of
the `SettlingTicks - 1` ticks before show each of them, in the same state and on the local node. -/
theorem attempt_settled (hnew : ∀ key, s.settled key = 0) (os : List Observation) (o : Observation)
    (h : (s.after (os ++ [o])).attempt o.snapshot i = some c) (hr : r ∈ c.ranges o.snapshot)
    (j : Nat) (hj : (j : Int) < max 1 s.cfg.tabletSettlingTicks) :
    ∃ o', (o :: os.reverse)[j]? = some o' ∧ o'.snapshot.Shows s.cfg.nodeID r.settledKey := by
  obtain ⟨hnode, hsettled⟩ := ready_of_attempt h hr
  rw [cfg_after] at hnode
  have hcount : s.cfg.tabletSettlingTicks ≤ (s.after (os ++ [o])).settled r.settledKey :=
    cfg_after s (os ++ [o]) ▸ of_decide_eq_true hsettled
  rw [settled_after hnew, List.reverse_concat] at hcount
  have hnow : o.snapshot.Shows s.cfg.nodeID r.settledKey :=
    ⟨r, mem_of_mem_changeRanges hr, rfl, hnode⟩
  have hlt : j < ((o :: os.reverse).takeWhile fun o =>
      o.snapshot.Shows s.cfg.nodeID r.settledKey).length := by
    rw [List.takeWhile_cons, decide_eq_true hnow, if_pos rfl, List.length_cons] at hcount ⊢
    omega
  obtain ⟨o', ho', hshows⟩ := exists_getElem?_of_lt_takeWhile hlt
  exact ⟨o', ho', of_decide_eq_true hshows⟩

/-- A scheduler that waits for two ticks, and a tick that finds the only range full. -/
def patientScheduler : Scheduler :=
  newScheduler { sampleConfig 2 with tabletSettlingTicks := 2 } sampleSum64 sampleSha256
    sampleScanner.val

def fullObservation : Observation := ⟨sampleMap, [], fun _ _ => some 256, fun _ _ => some [109]⟩

theorem attempt_settled_second :
    (patientScheduler.after [fullObservation]).attempt sampleMap 0 = none ∧
    (patientScheduler.after [fullObservation, fullObservation]).attempt sampleMap 0 =
      some (.split 0) ∧
    ∃ o', [fullObservation, fullObservation][1]? = some o' ∧
      o'.snapshot.Shows [97] ⟨[], [], 1, [112]⟩ := by
  have hattempt : (patientScheduler.after [fullObservation, fullObservation]).attempt sampleMap 0 =
      some (.split 0) := by
    decide
  refine ⟨by decide, hattempt, ?_⟩
  exact attempt_settled (fun _ => rfl) [fullObservation] fullObservation hattempt
    List.mem_cons_self 1 (by decide)

end Scheduler
end ChudDB.Cluster
