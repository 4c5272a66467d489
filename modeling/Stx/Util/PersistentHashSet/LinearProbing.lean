import Stx.Util.PersistentHashSet.Table

/-! `lookup` with its batches of slots against the search that looks at the slots of the table one
by one. -/
namespace Stx.PersistentHashSet
open Probing (slot)

/-- The slots from `idx` on, the first one behind the last, until one is the id or empty or so many
were looked at. -/
def probeSlots (t : List SHA1Hash) (record_id : SHA1Hash) : Nat → Nat → Result Found
  | 0, _ => .RAISE .illegalStateError "set is full"
  | left+1, idx =>
    if t.getD idx .zero = record_id then .ok .yes
    else if t.getD idx .zero = .zero then .ok (.no idx)
    else probeSlots t record_id left (if idx+1 = t.length then 0 else idx+1)

/-- Plain linear probing: all slots, beginning with the one that the hash value falls on. -/
def linearProbe (t : List SHA1Hash) (h : BitVec 64) (record_id : SHA1Hash) : Result Found :=
  probeSlots t record_id t.length (h.toNat % t.length)

theorem next_idx {n : Nat} (hn : 0 < n) (a : Nat) :
    (if a % n+1 = n then 0 else a % n+1) = (a+1) % n := by
  have hlt := Nat.mod_lt a hn
  have hmod : (a % n+1) % n = (a+1) % n := Nat.mod_add_mod a n 1
  rw [← hmod]
  by_cases h : a % n+1 = n
  · rw [if_pos h, h, Nat.mod_self]
  · rw [if_neg h]
    exact (Nat.mod_eq_of_lt (by omega)).symm

/-- Pass by pass the loop does what the plain search does. -/
theorem lookupLoop_eq_probeSlots (env : Env) {fs : FileSystem} {inode : Nat} {t : List SHA1Hash}
    (ht : Readable fs inode t) (id : SHA1Hash) (fuel : Nat) {p : Probe}
    (hp : p.Sound inode t t) :
    lookupLoop env fs t.length id fuel p
      = probeSlots t id fuel ((hashOf env id+p.i) % t.length) := by
  induction fuel generalizing p with
  | zero => rfl
  | succ fuel ih =>
    obtain ⟨s, p', hs, hp', hi, hstep⟩ := lookupStep_eq env ht (.refl t) hp id
    rw [lookupLoop, hstep, Result.ok_bind, hs.eq, probeSlots, next_idx ht.pos, Nat.add_assoc, ← hi]
    by_cases hyes : t.getD ((hashOf env id+p.i) % t.length) .zero = id
    · rw [if_pos hyes, if_pos hyes]
      rfl
    · rw [if_neg hyes, if_neg hyes]
      by_cases hempty : t.getD ((hashOf env id+p.i) % t.length) .zero = .zero
      · rw [if_pos hempty, if_pos hempty]
        rfl
      · rw [if_neg hempty, if_neg hempty]
        exact ih hp'

theorem lookup_eq_linearProbe (env : Env) {fs : FileSystem} {file : File} {t : List SHA1Hash}
    (ht : Readable fs file.inode t) (id : SHA1Hash) :
    lookup env fs file t.length id = linearProbe t (env.hash id.hash) id :=
  lookupLoop_eq_probeSlots env ht id t.length (Probe.sound_new env file t t)

/-- The search gives up where neither the id nor an empty slot is among those that it looks at. -/
theorem probeSlots_full_iff {t : List SHA1Hash} (hpos : 0 < t.length) (id : SHA1Hash)
    (start : Nat) {left i : Nat} :
    probeSlots t id left ((start+i) % t.length) = .RAISE .illegalStateError "set is full" ↔
      ∀ j < left, slot .zero t start (i+j) ≠ id ∧ slot .zero t start (i+j) ≠ .zero := by
  induction left generalizing i with
  | zero => exact iff_of_true rfl fun j hj => absurd hj (Nat.not_lt_zero j)
  | succ left ih =>
    rw [probeSlots, next_idx hpos, Nat.add_assoc, Nat.forall_lt_succ_left]
    change _ ↔ (t.getD ((start+i) % t.length) .zero ≠ id ∧
      t.getD ((start+i) % t.length) .zero ≠ .zero) ∧ _
    by_cases hyes : t.getD ((start+i) % t.length) .zero = id
    · rw [if_pos hyes]
      exact iff_of_false (fun h => by cases h) fun h => h.1.1 hyes
    · rw [if_neg hyes]
      by_cases hempty : t.getD ((start+i) % t.length) .zero = .zero
      · rw [if_pos hempty]
        exact iff_of_false (fun h => by cases h) fun h => h.1.2 hempty
      · rw [if_neg hempty, ih, and_iff_right ⟨hyes, hempty⟩]
        simp only [Nat.add_assoc, Nat.add_comm 1]

theorem linearProbe_full_iff {t : List SHA1Hash} (hpos : 0 < t.length) (h : BitVec 64)
    (id : SHA1Hash) :
    linearProbe t h id = .RAISE .illegalStateError "set is full" ↔ .zero ∉ t ∧ id ∉ t := by
  have hfull := @probeSlots_full_iff t hpos id h.toNat t.length 0
  rw [Nat.add_zero] at hfull
  rw [linearProbe, hfull]
  constructor
  · intro hall
    have hslot : ∀ a ∈ t, a ≠ id ∧ a ≠ .zero := by
      intro a ha
      obtain ⟨q, hq, rfl⟩ := List.getElem_of_mem ha
      obtain ⟨d, hd, hdq⟩ := Probing.exists_distance h.toNat hq
      have hd' := hall d hd
      rwa [Nat.zero_add, slot, hdq, List.getD_eq_getElem t .zero hq] at hd'
    exact ⟨fun hz => (hslot _ hz).2 rfl, fun hid => (hslot _ hid).1 rfl⟩
  · rintro ⟨hz, hid⟩ j hj
    have hlt : (h.toNat+(0+j)) % t.length < t.length := Nat.mod_lt _ hpos
    rw [slot, List.getD_eq_getElem t .zero hlt]
    exact ⟨fun he => hid (he ▸ List.getElem_mem hlt), fun he => hz (he ▸ List.getElem_mem hlt)⟩

theorem dvd_of_size {n k : Nat} (hsize : n = 512*2^k) (hlt : n < 2^63) : n ∣ 2^64 := by
  have hpow : n = 2^(9+k) := by
    rw [hsize, Nat.pow_add]
  have hk : 9+k < 63 := (Nat.pow_lt_pow_iff_right (by decide)).1 (hpow ▸ hlt)
  rw [hpow]
  exact Nat.pow_dvd_pow 2 (by omega)

/-- On a file that holds a table of one of the sizes that `grow` gives it. -/
theorem batched_lookup_is_linear (env : Env) (fs : FileSystem) (file : File) (t : List SHA1Hash)
    (k : Nat) (hsize : t.length = 512*2^k) (hcontent : fs.content file.inode = image t)
    (hfile : (fs.content file.inode).length < 2^63) (id : SHA1Hash) :
    lookup env fs file t.length id = linearProbe t (env.hash id.hash) id ∧
      (lookup env fs file t.length id = .RAISE .illegalStateError "set is full" ↔
        .zero ∉ t ∧ id ∉ t) := by
  have hpos : 0 < t.length := by
    rw [hsize]
    exact Nat.mul_pos (by decide) (Nat.two_pow_pos k)
  rw [hcontent, length_image] at hfile
  have hdvd : t.length ∣ 2^64 := dvd_of_size hsize (by omega)
  rw [lookup_eq_linearProbe env ⟨hcontent, hpos, hdvd, hfile⟩ id]
  exact ⟨rfl, linearProbe_full_iff hpos _ id⟩

/-- The id of twenty bytes 0x7f: its search in 512 slots starts at slot 385. -/
def lateId : SHA1Hash := ⟨List.replicate 20 0x7f, rfl⟩

/-- A table of the first size without an empty slot. The id stands in slot 20, so that the search for
it reads six batches up to the end of the file and goes on at its beginning. -/
def crowdedTable : List SHA1Hash :=
  (List.replicate 512 ⟨List.replicate 20 1, rfl⟩).set 20 lateId

def crowdedDisk : FileSystem :=
  { FileSystem.empty with content := fun _ => image crowdedTable }

theorem batched_lookup_is_linear_crowded :
    lookup .stx crowdedDisk ⟨0, 0⟩ crowdedTable.length lateId = .ok .yes ∧
      (lookup .stx crowdedDisk ⟨0, 0⟩ crowdedTable.length lateId =
          .RAISE .illegalStateError "set is full" ↔
        .zero ∉ crowdedTable ∧ lateId ∉ crowdedTable) := by
  have hlength : crowdedTable.length = 512 := by
    rw [crowdedTable, List.length_set, List.length_replicate]
  have hlookup := batched_lookup_is_linear .stx crowdedDisk ⟨0, 0⟩ crowdedTable 0 hlength rfl
    (by
      change (image crowdedTable).length < 2^63
      rw [length_image, hlength]
      decide) lateId
  have hprobe : linearProbe crowdedTable (Env.stx.hash lateId.hash) lateId = .ok .yes := by
    decide +kernel
  exact ⟨hlookup.1.trans hprobe, hlookup.2⟩

end Stx.PersistentHashSet
