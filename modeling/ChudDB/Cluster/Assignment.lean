import ChudDB.Lib.Ranking
import ChudDB.Cluster.MerkleRoot
import ChudDB.Cluster.VectorClock

/-! # Placing replicas

`AssignReplicas` (`assignment.go`) ranks the candidates of a range by a hash of the range and the
node. It takes the best of the previous replicas, all but one of the number that is needed, and
fills up with the best of the others. Who is taken depends on the sets of candidates and previous
replicas only (`assignReplicas_postcondition`). The hash is a parameter. -/

namespace ChudDB.Cluster
open Lib

inductive AssignError where
  | countTooSmall
  | tooFewCandidates (count : Int) (candidates : Nat)
  | unsafeReplicaAssignment
deriving DecidableEq, Repr

/-- The order of `rankCandidates`: the higher score first, then the smaller node ID. -/
def RanksBefore (score : NodeID → Counter) (a b : NodeID) : Prop :=
  if score a ≠ score b then score a > score b else a ≤ b

instance : DecidableRel (RanksBefore score) := fun a b =>
  inferInstanceAs (Decidable (if score a ≠ score b then score a > score b else a ≤ b))

/-- `rankCandidates`, with the scores of the candidates for the range. -/
def rankCandidates (score : NodeID → Counter) (candidates : List NodeID) : List NodeID :=
  (candidates.filter (· ≠ [])).dedup.insertionSort (RanksBefore score)

/-- A loop over the ranked candidates that selects the wanted ones until there are `count`. -/
def selectUpTo (count : Nat) (wanted : NodeID → Bool) (ranked selected : List NodeID) :
    List NodeID :=
  ranked.foldl (fun selected nodeID =>
    if selected.length = count then selected
    else if wanted nodeID then selected.insert nodeID else selected) selected

/-- How many of the previous replicas have to stay. -/
def retainedNeeded (count : Int) : Int := if count > 1 then count - 1 else count

/-- `AssignReplicas`, with the scores of the nodes for the range. -/
def assignReplicas (score : NodeID → Counter) (candidates previous : List NodeID) (count : Int) :
    Except AssignError (List NodeID) :=
  let ranked := rankCandidates score candidates
  if count < 1 then .error .countTooSmall
  else if ranked.length < count then .error (.tooFewCandidates count ranked.length)
  else
    let retained := selectUpTo (retainedNeeded count).toNat (· ∈ previous) ranked []
    if retained.length < retainedNeeded count then .error .unsafeReplicaAssignment
    else
      let selected := selectUpTo count.toNat (fun _ => true) ranked retained
      .ok (ranked.filter (· ∈ selected))

/-- `replicaScore`: the hash of the range and the node, each string behind its length. -/
def replicaScore (sum64 : Bytes → Counter) (start end_ : Bytes) (nodeID : NodeID) : Counter :=
  sum64 (lengthPrefixed start ++ lengthPrefixed end_ ++ lengthPrefixed nodeID)

/-! ## The ranking -/

section
variable {score : NodeID → Counter} {a b c : NodeID}

theorem ranksBefore_iff : RanksBefore score a b ↔ score b < score a ∨ score a = score b ∧ a ≤ b := by
  rw [RanksBefore]
  split
  · rename_i hne
    simp [hne]
  · rename_i heq
    rw [not_not] at heq
    simp [heq]

theorem RanksBefore.trans (h : RanksBefore score a b) (h' : RanksBefore score b c) :
    RanksBefore score a c := by
  rw [ranksBefore_iff] at h h' ⊢
  rcases h with hlt | ⟨heq, hle⟩
  · rcases h' with hlt' | ⟨heq', -⟩
    · exact .inl (hlt'.trans hlt)
    · exact .inl (heq' ▸ hlt)
  · rcases h' with hlt' | ⟨heq', hle'⟩
    · exact .inl (heq ▸ hlt')
    · exact .inr ⟨heq.trans heq', hle.trans hle'⟩

theorem ranksBefore_total (a b : NodeID) : RanksBefore score a b ∨ RanksBefore score b a := by
  rw [ranksBefore_iff, ranksBefore_iff]
  rcases lt_trichotomy (score a) (score b) with hlt | heq | hlt
  · exact .inr (.inl hlt)
  · rcases le_total a b with hle | hle
    · exact .inl (.inr ⟨heq, hle⟩)
    · exact .inr (.inr ⟨heq.symm, hle⟩)
  · exact .inl (.inl hlt)

theorem RanksBefore.antisymm (h : RanksBefore score a b) (h' : RanksBefore score b a) : a = b := by
  rw [ranksBefore_iff] at h h'
  rcases h with hlt | ⟨heq, hle⟩
  · rcases h' with hlt' | ⟨heq', -⟩
    · exact absurd hlt' hlt.asymm
    · exact absurd heq' hlt.ne
  · rcases h' with hlt' | ⟨-, hle'⟩
    · exact absurd heq hlt'.ne
    · exact le_antisymm hle hle'

end

section
variable {score : NodeID → Counter} {candidates candidates' : List NodeID}

theorem mem_rankCandidates :
    nodeID ∈ rankCandidates score candidates ↔ nodeID ∈ candidates ∧ nodeID ≠ [] := by
  rw [rankCandidates, List.mem_insertionSort, List.mem_dedup, List.mem_filter, decide_eq_true_iff]

theorem nodup_rankCandidates : (rankCandidates score candidates).Nodup :=
  (List.perm_insertionSort _ _).nodup_iff.mpr (List.nodup_dedup _)

theorem sorted_rankCandidates : (rankCandidates score candidates).Pairwise (RanksBefore score) := by
  have : Std.Total (RanksBefore score) := ⟨ranksBefore_total⟩
  have : IsTrans NodeID (RanksBefore score) := ⟨fun _ _ _ => RanksBefore.trans⟩
  exact List.pairwise_insertionSort _ _

theorem rankCandidates_congr (h : ∀ nodeID, nodeID ∈ candidates ↔ nodeID ∈ candidates') :
    rankCandidates score candidates = rankCandidates score candidates' := by
  refine eq_of_sorted_of_mem_iff (fun _ _ => RanksBefore.antisymm) sorted_rankCandidates
    sorted_rankCandidates nodup_rankCandidates nodup_rankCandidates fun nodeID => ?_
  rw [mem_rankCandidates, mem_rankCandidates, h]

theorem rankCandidates_perm (hnodup : candidates.Nodup) (hne : [] ∉ candidates) :
    (rankCandidates score candidates).Perm candidates := by
  have hfilter : candidates.filter (· ≠ []) = candidates :=
    List.filter_eq_self.mpr fun id hid => decide_eq_true fun heq => hne (heq ▸ hid)
  rw [rankCandidates, hfilter, hnodup.dedup]
  exact List.perm_insertionSort _ _

end

/-! ## The selection -/

section
variable {count : Nat} {wanted : NodeID → Bool} {ranked selected : List NodeID}

/-- The loop fills up with the first of the wanted candidates that are not selected yet. -/
theorem selectUpTo_perm (hranked : ranked.Nodup) (hselected : selected.length ≤ count) :
    (selectUpTo count wanted ranked selected).Perm (selected ++
      (ranked.filter fun id => wanted id && decide (id ∉ selected)).take
        (count - selected.length)) := by
  induction ranked generalizing selected with
  | nil => rw [List.filter_nil, List.take_nil, List.append_nil]; exact .refl _
  | cons nodeID ranked ih =>
    obtain ⟨hnot, hranked⟩ := List.nodup_cons.mp hranked
    rw [selectUpTo, List.foldl_cons, ← selectUpTo]
    by_cases hfull : selected.length = count
    · have hkeep := ih hranked hselected
      rw [hfull, Nat.sub_self, List.take_zero] at hkeep ⊢
      rwa [if_pos rfl]
    rw [if_neg hfull]
    by_cases hadd : wanted nodeID = true ∧ nodeID ∉ selected
    · have hrest : (ranked.filter fun id => wanted id && decide (id ∉ nodeID :: selected)) =
          ranked.filter fun id => wanted id && decide (id ∉ selected) := by
        refine List.filter_congr fun id hid => ?_
        have hne : id ≠ nodeID := fun heq => hnot (heq ▸ hid)
        simp only [List.mem_cons, hne, false_or]
      have hsub : count - selected.length = count - (nodeID :: selected).length + 1 := by
        rw [List.length_cons]
        omega
      have hmore := ih hranked (show (nodeID :: selected).length ≤ count by
        rw [List.length_cons]
        omega)
      rw [hrest] at hmore
      rw [if_pos hadd.1, List.insert_of_not_mem hadd.2,
        List.filter_cons_of_pos (by simpa using hadd), hsub, List.take_succ_cons]
      exact hmore.trans List.perm_middle.symm
    · have hkeep : (if wanted nodeID = true then selected.insert nodeID else selected) =
          selected := by
        split
        · rename_i hwanted
          exact List.insert_of_mem (not_not.mp fun hmem => hadd ⟨hwanted, hmem⟩)
        · rfl
      rw [hkeep, List.filter_cons_of_neg (by simpa using hadd)]
      exact ih hranked hselected

end

theorem retainedNeeded_eq (h : 1 ≤ count) : retainedNeeded count = max 1 (count - 1) := by
  rw [retainedNeeded]
  split <;> omega

section
variable (score : NodeID → Counter) (candidates previous : List NodeID) (count : Int)

/-- The best of the previous replicas. -/
def retained : List NodeID :=
  ((rankCandidates score candidates).filter (· ∈ previous)).take (retainedNeeded count).toNat

/-- The best of the others. -/
def added : List NodeID :=
  ((rankCandidates score candidates).filter (· ∉ retained score candidates previous count)).take
    (count.toNat - (retained score candidates previous count).length)

variable {score candidates previous count}

theorem length_retained : (retained score candidates previous count).length =
    min (retainedNeeded count).toNat ((rankCandidates score candidates).countP (· ∈ previous)) := by
  rw [retained, List.length_take, List.countP_eq_length_filter]

/-- When `AssignReplicas` succeeds, and with what. -/
theorem assignReplicas_eq_ok_iff :
    assignReplicas score candidates previous count = .ok replicas ↔
      1 ≤ count ∧ count ≤ (rankCandidates score candidates).length ∧
      retainedNeeded count ≤ (rankCandidates score candidates).countP (· ∈ previous) ∧
      replicas = (rankCandidates score candidates).filter
        (· ∈ retained score candidates previous count ++ added score candidates previous count) := by
  have hfirst : (selectUpTo (retainedNeeded count).toNat (· ∈ previous)
      (rankCandidates score candidates) []).Perm (retained score candidates previous count) := by
    have h : (selectUpTo (retainedNeeded count).toNat (· ∈ previous)
        (rankCandidates score candidates) []).Perm _ :=
      selectUpTo_perm nodup_rankCandidates (Nat.zero_le _)
    simpa [retained] using h
  generalize hsel : selectUpTo (retainedNeeded count).toNat (· ∈ previous)
    (rankCandidates score candidates) [] = selected at hfirst
  have hsecond (hcount : 1 ≤ count) : (selectUpTo count.toNat (fun _ => true)
      (rankCandidates score candidates) selected).Perm
      (retained score candidates previous count ++ added score candidates previous count) := by
    have hneeded := retainedNeeded_eq hcount
    have hle : selected.length ≤ count.toNat := by
      rw [hfirst.length_eq, length_retained]
      omega
    have h : (selectUpTo count.toNat (fun _ => true) (rankCandidates score candidates)
        selected).Perm _ := selectUpTo_perm nodup_rankCandidates hle
    have hothers : ((rankCandidates score candidates).filter fun id =>
        true && decide (id ∉ selected)) = (rankCandidates score candidates).filter
          (· ∉ retained score candidates previous count) :=
      List.filter_congr fun id _ => by rw [Bool.true_and, decide_eq_decide, hfirst.mem_iff]
    rw [hothers, hfirst.length_eq] at h
    exact h.trans (hfirst.append_right _)
  rw [assignReplicas]
  dsimp only
  rw [hsel]
  split
  · exact ⟨nofun, fun h => absurd h.1 (by omega)⟩
  · rename_i hcount
    have hneeded := retainedNeeded_eq (not_lt.mp hcount)
    split
    · exact ⟨nofun, fun h => absurd h.2.1 (by omega)⟩
    · rename_i henough
      have hlen := hfirst.length_eq.trans length_retained
      split
      · exact ⟨nofun, fun h => absurd h.2.2.1 (by omega)⟩
      · rename_i hretained
        have hfilter : (rankCandidates score candidates).filter (· ∈ selectUpTo count.toNat
            (fun _ => true) (rankCandidates score candidates) selected) =
            (rankCandidates score candidates).filter (· ∈ retained score candidates previous count ++
              added score candidates previous count) :=
          List.filter_congr fun id _ =>
            decide_eq_decide.mpr (hsecond (not_lt.mp hcount)).mem_iff
        rw [hfilter, Except.ok.injEq]
        constructor
        · rintro rfl
          exact ⟨not_lt.mp hcount, not_lt.mp henough, by omega, rfl⟩
        · exact fun h => h.2.2.2.symm

/-- What is known of replicas that were assigned. -/
structure Assigned (score : NodeID → Counter) (candidates previous : List NodeID) (count : Int)
    (replicas : List NodeID) : Prop where
  perm : replicas.Perm
    (retained score candidates previous count ++ added score candidates previous count)
  sorted : replicas.Pairwise (RanksBefore score)
  nodup : replicas.Nodup
  subset : ∀ nodeID ∈ replicas, nodeID ∈ candidates ∧ nodeID ≠ []
  length_retained : ((retained score candidates previous count).length : Int) = max 1 (count - 1)
  length_added : ((retained score candidates previous count).length : Int) +
    (added score candidates previous count).length = count

theorem retained_subset :
    retained score candidates previous count ⊆ rankCandidates score candidates :=
  fun _ h => List.mem_of_mem_filter (List.mem_of_mem_take h)

theorem nodup_retained : (retained score candidates previous count).Nodup :=
  (nodup_rankCandidates.filter _).sublist (List.take_sublist ..)

theorem mem_previous_of_mem_retained (h : nodeID ∈ retained score candidates previous count) :
    nodeID ∈ previous :=
  of_decide_eq_true (List.mem_filter.mp (List.mem_of_mem_take h)).2

/-- The candidates are the retained ones and the others. -/
theorem length_filter_notMem_retained : (retained score candidates previous count).length +
    ((rankCandidates score candidates).filter
      (· ∉ retained score candidates previous count)).length =
    (rankCandidates score candidates).length := by
  have hperm : ((rankCandidates score candidates).filter
      (· ∈ retained score candidates previous count)).Perm
      (retained score candidates previous count) := by
    refine (List.perm_ext_iff_of_nodup (nodup_rankCandidates.filter _) nodup_retained).mpr fun id => ?_
    rw [List.mem_filter, decide_eq_true_iff]
    exact and_iff_right_of_imp fun h => retained_subset h
  rw [← hperm.length_eq, ← List.countP_eq_length_filter, ← List.countP_eq_length_filter]
  have hsplit : (rankCandidates score candidates).length = _ :=
    List.length_eq_countP_add_countP fun id =>
      decide (id ∈ retained score candidates previous count)
  simpa using hsplit.symm

theorem assigned_of_assignReplicas
    (h : assignReplicas score candidates previous count = .ok replicas) :
    Assigned score candidates previous count replicas := by
  obtain ⟨hcount, henough, hprevious, rfl⟩ := assignReplicas_eq_ok_iff.mp h
  have hneeded := retainedNeeded_eq hcount
  have hretained : (retained score candidates previous count).length = _ := length_retained
  have hothers : (retained score candidates previous count).length + _ = _ :=
    length_filter_notMem_retained
  have hadded : (added score candidates previous count).length = min (count.toNat - _) _ :=
    List.length_take
  have hnodup : (retained score candidates previous count ++
      added score candidates previous count).Nodup := by
    refine List.nodup_append.mpr ⟨nodup_retained,
      (nodup_rankCandidates.filter _).sublist (List.take_sublist ..), ?_⟩
    rintro id hid _ hid' rfl
    exact of_decide_eq_true (List.mem_filter.mp (List.mem_of_mem_take hid')).2 hid
  refine ⟨?_, sorted_rankCandidates.filter _, nodup_rankCandidates.filter _, ?_, by omega, by omega⟩
  · refine (List.perm_ext_iff_of_nodup (nodup_rankCandidates.filter _) hnodup).mpr fun id => ?_
    rw [List.mem_filter, decide_eq_true_iff]
    refine and_iff_right_of_imp fun hid => ?_
    rcases List.mem_append.mp hid with hid | hid
    · exact retained_subset hid
    · exact List.mem_of_mem_filter (List.mem_of_mem_take hid)
  · exact fun id hid => mem_rankCandidates.mp (List.mem_of_mem_filter hid)

/-! ## The postcondition -/

/-- The distinct candidates with an ID. -/
def eligible (candidates : List NodeID) : Finset NodeID := candidates.toFinset.erase []

theorem mem_eligible : nodeID ∈ eligible candidates ↔ nodeID ∈ candidates ∧ nodeID ≠ [] := by
  rw [eligible, Finset.mem_erase, List.mem_toFinset, and_comm]

theorem countP_rankCandidates (score : NodeID → Counter) (p : NodeID → Prop) [DecidablePred p] :
    (rankCandidates score candidates).countP (p ·) = ((eligible candidates).filter p).card := by
  rw [List.countP_eq_length_filter, ← List.toFinset_card_of_nodup (nodup_rankCandidates.filter _)]
  congr 1
  ext nodeID
  rw [List.mem_toFinset, List.mem_filter, mem_rankCandidates, Finset.mem_filter, mem_eligible,
    decide_eq_true_iff]

theorem length_rankCandidates (score : NodeID → Counter) :
    (rankCandidates score candidates).length = (eligible candidates).card := by
  rw [← List.toFinset_card_of_nodup nodup_rankCandidates]
  congr 1
  ext nodeID
  rw [List.mem_toFinset, mem_rankCandidates, mem_eligible]

/-- A previous replica is retained if fewer than the needed number of others rank before it. -/
theorem mem_retained_iff (hmem : nodeID ∈ eligible candidates) (hprevious : nodeID ∈ previous) :
    nodeID ∈ retained score candidates previous count ↔
      ((eligible candidates).filter fun id => id ∈ previous ∧ RanksBefore score id nodeID ∧
        id ≠ nodeID).card < (retainedNeeded count).toNat := by
  have hranked : nodeID ∈ (rankCandidates score candidates).filter (· ∈ previous) :=
    List.mem_filter.mpr ⟨mem_rankCandidates.mpr (mem_eligible.mp hmem), decide_eq_true hprevious⟩
  have hstrict : ((rankCandidates score candidates).filter (· ∈ previous)).Pairwise
      fun a b => RanksBefore score a b ∧ a ≠ b :=
    (sorted_rankCandidates.and nodup_rankCandidates).filter _
  rw [retained, mem_take_iff_countP_lt (fun a b hab hba => hab.2 (hab.1.antisymm hba.1)) hstrict
    hranked, List.countP_filter, ← countP_rankCandidates score]
  simp only [Bool.decide_and, Bool.and_comm, Bool.and_left_comm]

theorem assignReplicas_congr {candidates' previous' : List NodeID}
    (hcandidates : ∀ nodeID, nodeID ∈ candidates ↔ nodeID ∈ candidates')
    (hprevious : ∀ nodeID, nodeID ∈ previous ↔ nodeID ∈ previous') :
    assignReplicas score candidates previous count =
      assignReplicas score candidates' previous' count := by
  have hwanted : (fun id => decide (id ∈ previous)) = fun id => decide (id ∈ previous') :=
    funext fun id => decide_eq_decide.mpr (hprevious id)
  rw [assignReplicas, assignReplicas, rankCandidates_congr hcandidates, hwanted]

end

/-- `AssignReplicas` succeeds exactly if there are enough candidates and enough previous replicas
among them. The result has the wanted length, keeps the best of the previous replicas and is listed
by rank. It depends on the sets of candidates and of previous replicas only. -/
theorem assignReplicas_postcondition (sum64 : Bytes → Counter) (start end_ : Bytes)
    (candidates previous : List NodeID) (count : Int) :
    let score := replicaScore sum64 start end_
    let r : Int := if count = 1 then 1 else count - 1
    ((∃ replicas, assignReplicas score candidates previous count = .ok replicas) ↔
      1 ≤ count ∧ count ≤ (eligible candidates).card ∧
      r ≤ ((eligible candidates).filter (· ∈ previous)).card) ∧
    (∀ replicas, assignReplicas score candidates previous count = .ok replicas →
      replicas.length = count ∧ replicas.Nodup ∧ (∀ id ∈ replicas, id ∈ eligible candidates) ∧
      (∀ id ∈ eligible candidates, id ∈ previous →
        (((eligible candidates).filter fun other => other ∈ previous ∧
          RanksBefore score other id ∧ other ≠ id).card : Int) < r → id ∈ replicas) ∧
      (replicas.countP (· ∉ previous) : Int) ≤ count - r ∧
      replicas.Pairwise (RanksBefore score)) ∧
    ∀ candidates' previous' : List NodeID, (∀ id, id ∈ candidates ↔ id ∈ candidates') →
      (∀ id, id ∈ previous ↔ id ∈ previous') →
      assignReplicas score candidates previous count =
        assignReplicas score candidates' previous' count := by
  intro score r
  have hr (hcount : 1 ≤ count) : retainedNeeded count = r := by
    rw [retainedNeeded_eq hcount]
    simp only [r]
    split <;> omega
  refine ⟨?_, ?_, fun _ _ => assignReplicas_congr⟩
  · rw [← length_rankCandidates score, ← countP_rankCandidates score]
    constructor
    · rintro ⟨replicas, h⟩
      obtain ⟨hcount, henough, hprevious, -⟩ := assignReplicas_eq_ok_iff.mp h
      exact ⟨hcount, henough, hr hcount ▸ hprevious⟩
    · rintro ⟨hcount, henough, hprevious⟩
      exact ⟨_, assignReplicas_eq_ok_iff.mpr ⟨hcount, henough, (hr hcount).symm ▸ hprevious, rfl⟩⟩
  · intro replicas h
    have hcount : 1 ≤ count := (assignReplicas_eq_ok_iff.mp h).1
    have hneeded := retainedNeeded_eq hcount
    have hr := hr hcount
    have hassigned := assigned_of_assignReplicas h
    have hretained := hassigned.length_retained
    have hadded := hassigned.length_added
    refine ⟨?_, hassigned.nodup, fun id hid => mem_eligible.mpr (hassigned.subset id hid), ?_, ?_,
      hassigned.sorted⟩
    · rw [hassigned.perm.length_eq, List.length_append]
      exact_mod_cast hadded
    · intro id hid hprevious hfew
      refine hassigned.perm.mem_iff.mpr (List.mem_append_left _ ?_)
      exact (mem_retained_iff hid hprevious).mpr (by omega)
    · have hkept : (retained score candidates previous count).countP (· ∉ previous) = 0 :=
        List.countP_eq_zero.mpr fun id hid => by simpa using mem_previous_of_mem_retained hid
      have hnew := List.countP_le_length (p := fun id => decide (id ∉ previous))
        (l := added score candidates previous count)
      rw [hassigned.perm.countP_eq, List.countP_append, hkept]
      omega

/-- A polynomial in the place of `xxhash`. -/
def sampleSum64 (data : Bytes) : Counter := data.foldl (fun h x => 31 * h + Fin.ofNat _ x.toNat) 7

/-- Candidates with repetitions and an empty ID, of which one is a previous replica. -/
theorem assignReplicas_postcondition_repeated :
    ∃ replicas, assignReplicas (replicaScore sampleSum64 [] []) [[99], [97], [], [98], [97]]
      [[97], [100]] 2 = .ok replicas ∧ replicas.length = 2 ∧ [97] ∈ replicas := by
  have h := assignReplicas_postcondition sampleSum64 [] [] [[99], [97], [], [98], [97]]
    [[97], [100]] 2
  obtain ⟨replicas, hok⟩ := h.1.mpr (by decide)
  obtain ⟨hlength, -, -, hbest, -⟩ := h.2.1 replicas hok
  exact ⟨replicas, hok, by exact_mod_cast hlength, hbest [97] (by decide) (by decide) (by decide)⟩

/-! ## What the replicas keep -/

section
variable {score : NodeID → Counter} {candidates previous previous' replicas : List NodeID}
  {count : Int}

/-- The new replicas keep all but one of the previous ones, and at least one. -/
def Retains (count : Int) (previous replicas : List NodeID) : Prop :=
  ∃ kept : List NodeID, kept.Nodup ∧ kept ⊆ previous ∧ kept ⊆ replicas ∧
    max 1 (count - 1) ≤ kept.length

theorem Retains.mono (h : Retains count previous replicas) (hsub : previous ⊆ previous') :
    Retains count previous' replicas :=
  h.imp fun _ hkept => ⟨hkept.1, fun _ hmem => hsub (hkept.2.1 hmem), hkept.2.2⟩

theorem Retains.replicas_ne_nil (h : Retains count previous replicas) : replicas ≠ [] := by
  obtain ⟨kept, -, -, hsub, hlength⟩ := h
  intro hnil
  have hkept : kept = [] := List.subset_nil.mp (hnil ▸ hsub)
  rw [hkept, List.length_nil] at hlength
  omega

theorem assignReplicas_spec (h : assignReplicas score candidates previous count = .ok replicas) :
    Retains count previous replicas ∧ replicas ⊆ candidates := by
  have hassigned := assigned_of_assignReplicas h
  refine ⟨⟨_, nodup_retained, fun _ => mem_previous_of_mem_retained, fun id hid => ?_,
    hassigned.length_retained.ge⟩, fun id hid => (hassigned.subset id hid).1⟩
  exact hassigned.perm.mem_iff.mpr (List.mem_append_left _ hid)

theorem exists_assignReplicas (hcount : 1 ≤ count)
    (hranked : count ≤ (rankCandidates score candidates).length)
    (hprevious : max 1 (count - 1) ≤ (rankCandidates score candidates).countP (· ∈ previous)) :
    ∃ replicas, assignReplicas score candidates previous count = .ok replicas :=
  ⟨_, assignReplicas_eq_ok_iff.mpr
    ⟨hcount, hranked, (retainedNeeded_eq hcount).symm ▸ hprevious, rfl⟩⟩

end
end ChudDB.Cluster
