import ModbusSecurity.CyclicCounters
import ModbusSecurity.SecureFraming

/-! # Counter blocks under one key

The allocator counts blocks modulo `2 ^ 32` and never refuses; the cipher carries into all
128 bits. A run of encryptions on one channel uses a block twice once it has gone round. -/
namespace ModbusSecurity.KeystreamFreshness
open ByteStrings LeaOnline KeyStore CounterFile CounterState SecureFraming CyclicCounters

/-- The counter blocks of the calls that succeed, call by call. -/
def usedAll (P : Primitives) (slave_addr : Byte) (dir : KeyDirection) :
    Node → List Bytes → List (List Bytes)
  | _, [] => []
  | n, pdu :: pdus =>
    let r := secureFrameEncryptAndBuild P n slave_addr pdu dir
    match r.1 with
    | none => usedAll P slave_addr dir r.2 pdus
    | some b => b.used :: usedAll P slave_addr dir r.2 pdus

/-- No two successful calls share a counter block. -/
def FreshBlocks (P : Primitives) : Prop :=
  ∀ (n : Node) (slave_addr : Byte) (dir : KeyDirection) (c : Channel),
    channelIndex slave_addr dir = some c → (n.keyTable c).valid = true → n.disk.Reliable →
    ∀ pdus : List Bytes, (usedAll P slave_addr dir n pdus).Pairwise List.Disjoint

/-- The PDUs that the length check lets through. -/
def legal (pdus : List Bytes) : List Bytes := pdus.filter fun pdu => decide (pdu.length ≤ maxPdu)

/-- The blocks of an item of the counter sequence. -/
def placeBlocks (e : ℕ × Bytes) : List Bytes := counterBlocks (e.1 % 2 ^ 32) (aduBlocks e.2)

theorem mem_counterBlocks {c n : ℕ} {b : Bytes} :
    b ∈ counterBlocks c n ↔ ∃ x, c ≤ x ∧ x < c + n ∧ counterBlock x = b := by
  simp [counterBlocks, and_assoc]

/-- Numbers of at most 128 bits stand for different blocks. -/
theorem disjoint_placeBlocks {a b : ℕ × Bytes} (ha : a.2.length ≤ maxPdu)
    (hb : b.2.length ≤ maxPdu) :
    (placeBlocks a).Disjoint (placeBlocks b) ↔ Apart aduBlocks (2 ^ 32) a b := by
  have hsmall : ∀ {e : ℕ × Bytes} {x : ℕ}, e.2.length ≤ maxPdu →
      x < e.1 % 2 ^ 32 + aduBlocks e.2 → x < 2 ^ 128 := by
    intro e x he hx
    have := aduBlocks_le he
    have := Nat.mod_lt e.1 (show 0 < 2 ^ 32 by omega)
    omega
  constructor
  · rintro h x ⟨ha1, ha2⟩ ⟨hb1, hb2⟩
    exact h (mem_counterBlocks.mpr ⟨x, ha1, ha2, rfl⟩) (mem_counterBlocks.mpr ⟨x, hb1, hb2, rfl⟩)
  · intro h blk hblka hblkb
    obtain ⟨x, hx1, hx2, rfl⟩ := mem_counterBlocks.mp hblka
    obtain ⟨y, hy1, hy2, hxy⟩ := mem_counterBlocks.mp hblkb
    obtain rfl := counterBlock_injective (hsmall hb hy2) (hsmall ha hx2) hxy
    exact h y ⟨hx1, hx2⟩ ⟨hy1, hy2⟩

section Channel
variable {P : Primitives} {slave_addr : Byte} {dir : KeyDirection} {c : Channel}

/-- The successful calls are placed one behind the other. -/
theorem usedAll_eq {n : Node} {pdus : List Bytes} {p : ℕ}
    (hc : channelIndex slave_addr dir = some c) (hkey : (n.keyTable c).valid = true)
    (hp : nextValue n c = BitVec.ofNat 32 p) :
    usedAll P slave_addr dir n pdus = (places aduBlocks p (legal pdus)).map placeBlocks := by
  induction pdus generalizing n p with
  | nil => rfl
  | cons pdu pdus ih =>
    by_cases hlen : pdu.length ≤ maxPdu
    · have hbuild := secureFrameEncryptAndBuild_eq (P := P) hlen hc hkey
      have hnext : nextValue (storeEntry n c
          (reserve (n.ctrTable c) (nextValue n c) (pdu.length + 3))) c =
          BitVec.ofNat 32 (p + aduBlocks pdu) := by
        rw [nextValue_reserve, hp, numBlocks_adu hlen, BitVec.ofNat_add]
      rw [usedAll, hbuild, legal, List.filter_cons_of_pos (by simpa using hlen), places,
        List.map_cons]
      simp only
      rw [ih (by exact hkey) hnext, hp, blocksUsed, BitVec.toNat_ofNat]
      rfl
    · have hbuild : secureFrameEncryptAndBuild P n slave_addr pdu dir = (none, n) := by
        rcases secureFrameEncryptAndBuild_cases P n slave_addr pdu dir with h | ⟨h, -⟩
        · exact h
        · exact absurd h hlen
      rw [usedAll, hbuild, legal, List.filter_cons_of_neg (by simpa using hlen)]
      exact ih hkey hp

theorem pairwise_usedAll_iff {n : Node} (hc : channelIndex slave_addr dir = some c)
    (hkey : (n.keyTable c).valid = true) (pdus : List Bytes) :
    (usedAll P slave_addr dir n pdus).Pairwise List.Disjoint ↔
      (places aduBlocks (nextValue n c).toNat (legal pdus)).Pairwise
        (Apart aduBlocks (2 ^ 32)) := by
  have hlegal : ∀ e ∈ places aduBlocks (nextValue n c).toNat (legal pdus),
      e.2.length ≤ maxPdu := by
    intro e he
    have := (places_bounds he).2.2
    simpa [legal] using (List.mem_filter.mp this).2
  rw [usedAll_eq hc hkey (by simp : nextValue n c = BitVec.ofNat 32 (nextValue n c).toNat),
    List.pairwise_map]
  constructor
  · exact fun h => h.imp_of_mem fun ha hb => (disjoint_placeBlocks (hlegal _ ha) (hlegal _ hb)).mp
  · exact fun h => h.imp_of_mem fun ha hb => (disjoint_placeBlocks (hlegal _ ha) (hlegal _ hb)).mpr

private theorem aduBlocks_legal (pdus : List Bytes) :
    ∀ pdu ∈ legal pdus, 0 < aduBlocks pdu ∧ aduBlocks pdu ≤ 2 ^ 32 := by
  intro pdu h
  have hlen : pdu.length ≤ maxPdu := by simpa using (List.mem_filter.mp h).2
  have := aduBlocks_le hlen
  exact ⟨aduBlocks_pos pdu, by omega⟩

/-- The blocks of a run are fresh exactly if they number at most `2 ^ 32` or the last frame
still starts before the counter wraps. -/
theorem fresh_blocks_iff {n : Node} (hc : channelIndex slave_addr dir = some c)
    (hkey : (n.keyTable c).valid = true) (pdus : List Bytes) :
    (usedAll P slave_addr dir n pdus).Pairwise List.Disjoint ↔
      total aduBlocks (legal pdus) ≤ 2 ^ 32 ∨
      (nextValue n c).toNat + total aduBlocks (legal pdus).dropLast < 2 ^ 32 := by
  rw [pairwise_usedAll_iff hc hkey]
  exact apart_places_iff (nextValue n c).isLt (aduBlocks_legal pdus)

end Channel

private theorem total_replicate (k : ℕ) :
    total aduBlocks (legal (List.replicate k [])) = k ∧
      total aduBlocks (legal (List.replicate (k + 1) [])).dropLast = k := by
  have hlegal : ∀ j, legal (List.replicate j []) = List.replicate j [] := by
    intro j
    exact List.filter_eq_self.mpr fun pdu h => by simp [List.eq_of_mem_replicate h]
  have htotal : ∀ j, total aduBlocks (List.replicate j []) = j := by
    intro j
    rw [total, List.map_replicate, List.sum_replicate]
    exact mul_one j
  rw [hlegal, hlegal, List.dropLast_replicate, htotal, Nat.add_sub_cancel, htotal]
  exact ⟨rfl, rfl⟩

def freshProcess : Node :=
  { startProcess ⟨fun _ => none, []⟩ with
    keyTable := fun _ => ⟨true, ⟨zeroKey, zeroKey⟩, 0⟩ }

/-- With LEA and any MAC: `2 ^ 32 + 1` empty PDUs on one channel of a new process. -/
theorem last_frame_reuses_first_block : ¬ ∃ mac, FreshBlocks (leaPrimitives mac) := by
  rintro ⟨mac, h⟩
  have hc : channelIndex 1 .masterToSlave = some (1, 0) := rfl
  have hkey : (freshProcess.keyTable (1, 0)).valid = true := rfl
  have hfresh := h freshProcess 1 .masterToSlave (1, 0) hc hkey rfl
    (List.replicate (2 ^ 32 + 1) [])
  rw [pairwise_usedAll_iff hc hkey] at hfresh
  refine not_apart_of_lap (nextValue freshProcess (1, 0)).isLt (aduBlocks_legal _) ?_ ?_ hfresh
  · rw [(total_replicate (2 ^ 32 + 1)).1]
    omega
  · rw [(total_replicate (2 ^ 32)).2]
    omega

/-- Two frames of one block are fresh. -/
theorem fresh_blocks_iff_two_frames :
    (usedAll (leaPrimitives fun _ _ => ⟨List.replicate 32 0, rfl⟩) 1 .masterToSlave freshProcess
      [[0x03], [0x04]]).Pairwise List.Disjoint :=
  (fresh_blocks_iff (c := (1, 0)) rfl rfl [[0x03], [0x04]]).mpr (.inl (by decide))

end ModbusSecurity.KeystreamFreshness
