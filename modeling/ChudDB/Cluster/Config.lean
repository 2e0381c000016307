import ChudDB.Cluster.VectorClock

/-! # The configuration of a node

`Config` (`config.go`) as far as `Validate` looks at it; durations are in nanoseconds. -/

namespace ChudDB.Cluster
open Lib

structure Config where
  nodeID : NodeID
  clusterID : Bytes
  listenAddr : Bytes
  advertiseAddr : Bytes
  replicationFactor : Int
  readQuorum : Int
  writeQuorum : Int
  tabletSplitBytes : Int
  tabletMergeBytes : Int
  tabletCheckInterval : Int
  tabletSettlingTicks : Int
  antiEntropyInterval : Int
  antiEntropyTimeout : Int
  antiEntropyFanout : Int
  antiEntropyLeafItemThreshold : Int
  antiEntropyMaxDepth : Int
  gossipInterval : Int
  pingTimeout : Int
  suspectTimeout : Int
  deadTimeout : Int
  replicationTimeout : Int
  indirectPingFanout : Int
  rangeMapGeneration : Counter

namespace Config

/-- The UTF-8 encodings of the white space of `strings.TrimSpace`. -/
def spaces : List Bytes :=
  [[0x09], [0x0A], [0x0B], [0x0C], [0x0D], [0x20], [0xC2, 0x85], [0xC2, 0xA0],
    [0xE1, 0x9A, 0x80], [0xE2, 0x80, 0x80], [0xE2, 0x80, 0x81], [0xE2, 0x80, 0x82],
    [0xE2, 0x80, 0x83], [0xE2, 0x80, 0x84], [0xE2, 0x80, 0x85], [0xE2, 0x80, 0x86],
    [0xE2, 0x80, 0x87], [0xE2, 0x80, 0x88], [0xE2, 0x80, 0x89], [0xE2, 0x80, 0x8A],
    [0xE2, 0x80, 0xA8], [0xE2, 0x80, 0xA9], [0xE2, 0x80, 0xAF], [0xE2, 0x81, 0x9F],
    [0xE3, 0x80, 0x80]]

/-- The text is white space only; the number bounds its length. -/
def isBlankWithin : Nat → Bytes → Bool
  | 0, text => text.isEmpty
  | n + 1, text => text.isEmpty ||
    spaces.any fun space => space.isPrefixOf text && isBlankWithin n (text.drop space.length)

/-- `strings.TrimSpace` leaves nothing of the text. -/
def isBlank (text : Bytes) : Bool := isBlankWithin text.length text

/-- The checks of `Validate` in their order: whether the check fails, and its error. -/
def checks (cfg : Config) : List (Bool × String) :=
  [(isBlank cfg.nodeID, "node_id must not be empty"),
    (isBlank cfg.clusterID, "cluster_id must not be empty"),
    (isBlank cfg.listenAddr, "listen_addr must not be empty"),
    (isBlank cfg.advertiseAddr, "advertise_addr must not be empty"),
    (cfg.replicationFactor < 1, "replication_factor must be >= 1"),
    (cfg.readQuorum < 1 ∨ cfg.readQuorum > cfg.replicationFactor,
      "read_quorum must be between 1 and replication_factor"),
    (cfg.writeQuorum < 1 ∨ cfg.writeQuorum > cfg.replicationFactor,
      "write_quorum must be between 1 and replication_factor"),
    (cfg.readQuorum + cfg.writeQuorum ≤ cfg.replicationFactor,
      "read_quorum + write_quorum must exceed replication_factor"),
    (cfg.tabletMergeBytes ≤ 0, "tablet_merge_bytes must be > 0"),
    (cfg.tabletSplitBytes ≤ cfg.tabletMergeBytes,
      "tablet_split_bytes must be greater than tablet_merge_bytes"),
    (cfg.tabletCheckInterval ≤ 0, "tablet_check_interval must be > 0"),
    (cfg.tabletSettlingTicks < 1, "tablet_settling_ticks must be >= 1"),
    (cfg.antiEntropyInterval ≤ 0, "anti_entropy_interval must be > 0"),
    (cfg.antiEntropyTimeout ≤ 0, "anti_entropy_timeout must be > 0"),
    (cfg.antiEntropyFanout < 2, "anti_entropy_fanout must be >= 2"),
    (cfg.antiEntropyLeafItemThreshold < 1, "anti_entropy_leaf_item_threshold must be >= 1"),
    (cfg.antiEntropyMaxDepth < 1, "anti_entropy_max_depth must be >= 1"),
    (cfg.gossipInterval ≤ 0, "gossip_interval must be > 0"),
    (cfg.pingTimeout ≤ 0, "ping_timeout must be > 0"),
    (cfg.suspectTimeout ≤ cfg.pingTimeout, "suspect_timeout must be greater than ping_timeout"),
    (cfg.deadTimeout ≤ cfg.suspectTimeout, "dead_timeout must be greater than suspect_timeout"),
    (cfg.replicationTimeout ≤ 0, "replication_timeout must be > 0"),
    (cfg.indirectPingFanout < 0, "indirect_ping_fanout must be >= 0"),
    (cfg.rangeMapGeneration < 1, "range_map_generation must be >= 1")]

/-- `Config.Validate`. -/
def validate (cfg : Config) : Except String Unit :=
  match cfg.checks.find? (·.1) with
  | some (_, err) => .error err
  | none => .ok ()

/-- What `Validate` ensures for the placement of the replicas. -/
structure Placement (cfg : Config) : Prop where
  nodeID_ne : cfg.nodeID ≠ []
  one_le_replicationFactor : 1 ≤ cfg.replicationFactor
  one_le_writeQuorum : 1 ≤ cfg.writeQuorum
  writeQuorum_le : cfg.writeQuorum ≤ cfg.replicationFactor

theorem validate_eq_ok_iff {cfg : Config} :
    cfg.validate = .ok () ↔ ∀ check ∈ cfg.checks, check.1 = false := by
  rw [validate]
  cases hfind : cfg.checks.find? (·.1) with
  | none =>
    have hnone := List.find?_eq_none.mp hfind
    exact ⟨fun _ check h => Bool.eq_false_iff.mpr (hnone check h), fun _ => rfl⟩
  | some check =>
    have hfails := List.find?_some hfind
    refine ⟨fun h => (by cases h), fun h => ?_⟩
    rw [h check (List.mem_of_find?_eq_some hfind)] at hfails
    cases hfails

theorem placement_of_validate {cfg : Config} (h : cfg.validate = .ok ()) : cfg.Placement := by
  have hchecks := validate_eq_ok_iff.mp h
  simp only [checks, List.forall_mem_cons, decide_eq_false_iff_not] at hchecks
  obtain ⟨hnode, -, -, -, hfactor, -, hwrite, -⟩ := hchecks
  refine ⟨?_, by omega, by omega, by omega⟩
  rintro heq
  rw [heq] at hnode
  cases hnode

/-- What `Validate` ensures for the splits and merges of ranges. -/
structure Thresholds (cfg : Config) : Prop where
  merge_pos : 0 < cfg.tabletMergeBytes
  merge_lt_split : cfg.tabletMergeBytes < cfg.tabletSplitBytes
  one_le_settlingTicks : 1 ≤ cfg.tabletSettlingTicks

theorem thresholds_of_validate {cfg : Config} (h : cfg.validate = .ok ()) : cfg.Thresholds := by
  have hchecks := validate_eq_ok_iff.mp h
  simp only [checks, List.forall_mem_cons, decide_eq_false_iff_not] at hchecks
  obtain ⟨-, -, -, -, -, -, -, -, hmerge, hsplit, -, hticks, -⟩ := hchecks
  exact ⟨not_le.mp hmerge, not_le.mp hsplit, not_lt.mp hticks⟩

end Config
end ChudDB.Cluster
