import Stx.Util.PersistentHashSet
import Stx.Lib.Probing
import Stx.Lib.Blocks

/-! The file of a `PersistentHashSet` read as a table with linear probing: what the loops
of `lookup`, `scan` and `grow` compute on a file that holds a table `t`. -/
namespace Stx.PersistentHashSet
open Probing (slot keys occupied Path WellPlaced Grows)

/- Empty slots. -/

theorem eq_zero_of_decode : ∀ {bs : Bytes}, LittleEndian.decode bs = 0 → ∀ b ∈ bs, b = 0
  | [], _, _, hb => by cases hb
  | a :: bs, h, b, hb => by
    rw [LittleEndian.decode] at h
    have ha : a.toNat = 0 := by omega
    have hrest : LittleEndian.decode bs = 0 := by omega
    cases List.mem_cons.1 hb with
    | inl heq => rw [heq]; exact UInt8.toNat_inj.1 ha
    | inr hmem => exact eq_zero_of_decode hrest b hmem

/-- A slot whose first eight bytes are zero and repeat is all zero. -/
theorem isSlotEmpty_iff (s : SHA1Hash) : isSlotEmpty s = true ↔ s = .zero := by
  constructor
  · intro h
    simp only [isSlotEmpty, Bool.and_eq_true, beq_iff_eq] at h
    have h8 : s.hash.take 8 = List.replicate 8 0 := by
      rw [List.eq_replicate_iff]
      exact ⟨by simp, eq_zero_of_decode h.1⟩
    have h12 : s.hash.take 12 = s.hash.drop 8 := by
      rw [h.2, List.take_of_length_le (by simp)]
    have hsplit : s.hash.take 12 = List.replicate 8 0 ++ (s.hash.drop 8).take 4 := by
      rw [← h8, List.take_add (i := 8) (j := 4)]
    have h4 : (s.hash.drop 8).take 4 = List.replicate 4 0 := by
      rw [← h12, hsplit, List.take_append_of_le_length (by simp)]
      rfl
    apply SHA1Hash.ext
    rw [← List.take_append_drop 8 s.hash, h8, ← h12, hsplit, h4]
    rfl
  · rintro rfl
    rfl

@[simp] theorem isSlotEmpty_eq (s : SHA1Hash) : isSlotEmpty s = decide (s = .zero) := by
  rw [Bool.eq_iff_iff, isSlotEmpty_iff, decide_eq_true_iff]

/- The sizes that tables have. `File::write` cannot write a table of 2^27 slots. -/

def ValidSize (n : Nat) : Prop := ∃ k ≤ 17, n = 512*2^k

namespace ValidSize
variable {n : Nat}

theorem initial : ValidSize kInitialSlots := ⟨0, by omega, rfl⟩

theorem le (h : ValidSize n) : n ≤ 2^26 := by
  obtain ⟨k, hk, rfl⟩ := h
  have hpow : 2^k ≤ 2^17 := Nat.pow_le_pow_right (by omega) hk
  omega

theorem ge (h : ValidSize n) : 512 ≤ n := by
  obtain ⟨k, -, rfl⟩ := h
  have hpow : 0 < 2^k := Nat.two_pow_pos k
  omega

theorem dvd (h : ValidSize n) : n ∣ 2^64 := by
  obtain ⟨k, hk, rfl⟩ := h
  rw [show 512 = 2^9 from rfl, ← Nat.pow_add]
  exact Nat.pow_dvd_pow 2 (by omega)

/-- A table that is not of the largest size can be doubled. -/
theorem double (h : ValidSize n) (hne : n ≠ 2^26) : ValidSize (n*2) := by
  obtain ⟨k, hk, rfl⟩ := h
  have hk' : k ≠ 17 := by
    rintro rfl
    exact hne rfl
  exact ⟨k+1, by omega, by rw [Nat.pow_succ]; ring⟩

/-- 200 divides no table size, so the last batch of a scan is short. -/
theorem mod_pos (h : ValidSize n) : 0 < n % kFetchIOBatchSize := by
  obtain ⟨k, hk, rfl⟩ := h
  have hall : ∀ k ≤ 17, 0 < 512*2^k % kFetchIOBatchSize := by decide
  exact hall k hk

end ValidSize

/- Files. -/

/-- The contents of a file that holds the table `t`. -/
def image (t : List SHA1Hash) : Bytes := header t.length ++ t.flatMap SHA1Hash.hash

@[simp] theorem length_header (n : Nat) : (header n).length = headerSize := by
  simp [header, headerSize]

theorem length_image (t : List SHA1Hash) : (image t).length = headerSize+20*t.length := by
  rw [image, List.length_append, length_header, Records.length_flatMap SHA1Hash.size_eq]

theorem drop_image (t : List SHA1Hash) (idx : Nat) :
    (image t).drop (headerSize+20*idx) = (t.drop idx).flatMap SHA1Hash.hash := by
  rw [image, ← length_header t.length, ← List.drop_drop, List.drop_left,
    Records.drop_flatMap SHA1Hash.size_eq]

theorem slotAt_flatMap {t : List SHA1Hash} {idx : Nat} (h : idx < t.length) (rest : Bytes) :
    slotAt (t.flatMap SHA1Hash.hash ++ rest) idx = t[idx] := by
  apply SHA1Hash.ofMemory_eq
  have hlen := Records.length_flatMap SHA1Hash.size_eq t
  have hle : 20*idx+20 ≤ (t.flatMap SHA1Hash.hash).length := by omega
  rw [Nat.mul_comm, SHA1Hash.kSize, List.drop_append_of_le_length (by omega),
    List.take_append_of_le_length (by rw [List.length_drop]; omega),
    Records.take_drop_flatMap SHA1Hash.size_eq h]

theorem splice_image {t : List SHA1Hash} {idx : Nat} (h : idx < t.length) (id : SHA1Hash) :
    splice (image t) (headerSize+idx*SHA1Hash.kSize) id.hash = image (t.set idx id) := by
  have hlen := length_image t
  have hgap : headerSize+20*idx-(image t).length = 0 := by omega
  rw [splice, SHA1Hash.kSize, Nat.mul_comm idx, hgap, List.replicate_zero, List.append_nil,
    id.size_eq, image, image, List.length_set, ← length_header t.length, List.take_length_add_append,
    Nat.add_assoc, ← List.drop_drop, List.drop_left, List.append_assoc, List.append_assoc,
    ← List.append_assoc (List.take _ _), Records.set_flatMap SHA1Hash.size_eq h]

/-- `fs` holds the table `t` in an inode. -/
structure Holds (fs : FileSystem) (inode : Nat) (t : List SHA1Hash) : Prop where
  content_eq : fs.content inode = image t
  size : ValidSize t.length

/-- What a search needs of a file: the table `t`, of any size that a file can have. -/
structure Readable (fs : FileSystem) (inode : Nat) (t : List SHA1Hash) : Prop where
  content_eq : fs.content inode = image t
  pos : 0 < t.length
  dvd : t.length ∣ 2^64
  fits : headerSize+20*t.length < 2^63

theorem Holds.readable {fs : FileSystem} {inode : Nat} {t : List SHA1Hash}
    (h : Holds fs inode t) : Readable fs inode t where
  content_eq := h.content_eq
  pos := Nat.lt_of_lt_of_le (by decide) h.size.ge
  dvd := h.size.dvd
  fits := by
    have hle := h.size.le
    simp only [headerSize]
    omega

/- `lookup`. The buffer of a probe was filled from the file at some earlier time, so a
   slot in it lies between the table `t₀` at the start of the search and the table now. -/

/-- The slot at which the search for an id starts, up to the size of the table. -/
def hashOf (env : Env) (id : SHA1Hash) : Nat := (env.hash id.hash).toNat

theorem probeIdx_eq (env : Env) {n : Nat} (hn : n ∣ 2^64) (id : SHA1Hash) (i : Nat) :
    probeIdx env n id i = (hashOf env id+i) % n :=
  Nat.mod_mod_of_dvd _ hn

/-- A slot was read while the table went from `t₀` to `t`. -/
def Between (t₀ t : List SHA1Hash) (idx : Nat) (s : SHA1Hash) : Prop :=
  (t₀.getD idx .zero ≠ .zero → s = t₀.getD idx .zero) ∧ (s ≠ .zero → s = t.getD idx .zero)

theorem Between.eq {t : List SHA1Hash} {idx : Nat} {s : SHA1Hash} (h : Between t t idx s) :
    s = t.getD idx .zero := by
  by_cases hz : t.getD idx .zero = .zero
  · by_contra hne
    exact hne (h.2 (by rwa [hz] at hne))
  · exact h.1 hz

theorem Between.mono {t₀ t t' : List SHA1Hash} {idx : Nat} {s : SHA1Hash} (h : Between t₀ t idx s)
    (hg : Grows .zero t t') : Between t₀ t' idx s := by
  refine ⟨h.1, fun hs => ?_⟩
  have heq := h.2 hs
  rw [hg.keeps idx (by rwa [← heq]), heq]

/-- The local variables of a search on a table file. -/
structure Probe.Sound (p : Probe) (inode : Nat) (t₀ t : List SHA1Hash) : Prop where
  inode_eq : p.file.inode = inode
  cached : ∀ idx < t.length, p.misses idx = false →
    Between t₀ t idx (slotAt p.buf (idx-p.buf_offset))

theorem Probe.sound_new (env : Env) (file : File) (t₀ t : List SHA1Hash) :
    (Probe.new env file).Sound file.inode t₀ t := ⟨rfl, fun _ _ h => by cases h⟩

theorem Probe.Sound.mono {p : Probe} {inode : Nat} {t₀ t t' : List SHA1Hash}
    (h : p.Sound inode t₀ t) (hg : Grows .zero t t') : p.Sound inode t₀ t' where
  inode_eq := h.inode_eq
  cached idx hidx hmiss := (h.cached idx (by rwa [← hg.length_eq]) hmiss).mono hg

theorem seekTo_eq (file : File) {pos : Nat} (h : pos < 2^63) :
    file.seekTo pos = .ok { file with pos } := by
  have hmod : pos % 2^64 = pos := Nat.mod_eq_of_lt (by omega)
  rw [File.seekTo, hmod, if_pos h]

/-- A batch read at slot `idx`: at most 25 slots, and at least one. -/
theorem Probe.refill_eq {p : Probe} {fs : FileSystem} {t : List SHA1Hash}
    (ht : Readable fs p.file.inode t) {idx : Nat} (hidx : idx < t.length) :
    ∃ file : File, file.inode = p.file.inode ∧ p.refill fs idx = .ok
      { p with
        file, buf_offset := idx, buf_size := ((t.drop idx).take 25).length
        buf := overwrite p.buf (((t.drop idx).take 25).flatMap SHA1Hash.hash) } := by
  have hle := ht.fits
  have hseek : p.file.seekTo (headerSize+idx*SHA1Hash.kSize) =
      .ok { p.file with pos := headerSize+idx*SHA1Hash.kSize } :=
    seekTo_eq p.file (by simp only [headerSize, SHA1Hash.kSize] at hle ⊢; omega)
  have hdata : ((fs.content p.file.inode).drop (headerSize+idx*SHA1Hash.kSize)).take
      (kProbeIOBatchSize*SHA1Hash.kSize) = ((t.drop idx).take 25).flatMap SHA1Hash.hash := by
    rw [ht.content_eq, SHA1Hash.kSize, Nat.mul_comm idx, drop_image]
    exact Records.take_flatMap SHA1Hash.size_eq (t.drop idx) 25
  have hlen := Records.length_flatMap SHA1Hash.size_eq ((t.drop idx).take 25)
  have hpos : 0 < ((t.drop idx).take 25).length := by
    rw [List.length_take, List.length_drop]
    omega
  refine ⟨⟨p.file.inode, headerSize+idx*SHA1Hash.kSize+
    (((t.drop idx).take 25).flatMap SHA1Hash.hash).length⟩, rfl, ?_⟩
  rw [Probe.refill, hseek, Result.ok_bind]
  simp only [File.read, hdata]
  rw [if_neg (by rw [hlen, SHA1Hash.kSize]; omega), hlen, SHA1Hash.kSize,
    Nat.mul_div_cancel_left _ (by omega)]
  rfl

theorem between_getD {t₀ t : List SHA1Hash} (hg : Grows .zero t₀ t) (idx : Nat) :
    Between t₀ t idx (t.getD idx .zero) :=
  ⟨fun h => hg.keeps idx h, fun _ => rfl⟩

theorem Probe.sound_refill {p : Probe} {file : File} {inode idx : Nat} {t₀ t : List SHA1Hash}
    (hfile : file.inode = inode) (hg : Grows .zero t₀ t) (hlt : t.length < 2^64)
    (hidx : idx < t.length) :
    Probe.Sound
      { p with
        file, buf_offset := idx, buf_size := ((t.drop idx).take 25).length
        buf := overwrite p.buf (((t.drop idx).take 25).flatMap SHA1Hash.hash) } inode t₀ t where
  inode_eq := hfile
  cached j hj hmiss := by
    have hlen : ((t.drop idx).take 25).length ≤ t.length-idx := by
      rw [List.length_take, List.length_drop]
      omega
    have hmod : (idx+((t.drop idx).take 25).length) % 2^64 = idx+((t.drop idx).take 25).length :=
      Nat.mod_eq_of_lt (by omega)
    simp only [Probe.misses, Bool.or_eq_false_iff, decide_eq_false_iff_not, hmod] at hmiss
    have hin : j-idx < ((t.drop idx).take 25).length := by omega
    rw [overwrite, slotAt_flatMap hin, List.getElem_take, List.getElem_drop,
      ← List.getD_eq_getElem t .zero]
    have hj' : idx+(j-idx) = j := by omega
    rw [hj']
    exact between_getD hg j

theorem Probe.Sound.next {p : Probe} {inode : Nat} {t₀ t : List SHA1Hash}
    (h : p.Sound inode t₀ t) (i : Nat) : Probe.Sound { p with i } inode t₀ t :=
  ⟨h.inode_eq, h.cached⟩

/-- The buffer holds the slot that the pass looks at, after it was filled if it must be. -/
theorem fetch_eq {fs : FileSystem} {inode idx : Nat} {t₀ t : List SHA1Hash} {p : Probe}
    (ht : Readable fs inode t) (hg : Grows .zero t₀ t) (hp : p.Sound inode t₀ t)
    (hidx : idx < t.length) :
    ∃ p' : Probe, p'.Sound inode t₀ t ∧ p'.i = p.i ∧ p'.misses idx = false ∧
      p.fetch fs idx = .ok p' := by
  unfold Probe.fetch
  cases hmiss : p.misses idx with
  | false => exact ⟨p, hp, rfl, hmiss, rfl⟩
  | true =>
    obtain ⟨file, hfile, hrefill⟩ := p.refill_eq (hp.inode_eq ▸ ht) hidx
    have hle := ht.fits
    have hlt : t.length < 2^64 := by omega
    refine ⟨_, p.sound_refill (hfile.trans hp.inode_eq) hg hlt hidx, rfl, ?_, hrefill⟩
    have hlen : ((t.drop idx).take 25).length = min 25 (t.length-idx) := by
      rw [List.length_take, List.length_drop]
    simp only [Probe.misses, hlen, Bool.or_eq_false_iff, decide_eq_false_iff_not, beq_eq_false_iff_ne]
    omega

/-- What one pass of the probe loop does. The slot it looks at lies between the tables;
the loop ends when that slot is the id or empty. -/
theorem lookupStep_eq (env : Env) {fs : FileSystem} {inode : Nat} {t₀ t : List SHA1Hash}
    {p : Probe} (ht : Readable fs inode t) (hg : Grows .zero t₀ t) (hp : p.Sound inode t₀ t)
    (id : SHA1Hash) :
    ∃ (s : SHA1Hash) (p' : Probe), Between t₀ t ((hashOf env id+p.i) % t.length) s ∧
      p'.Sound inode t₀ t ∧ p'.i = p.i+1 ∧ lookupStep env fs t.length id p = .ok
        (if s = id then .inl .yes
        else if s = .zero then .inl (.no ((hashOf env id+p.i) % t.length))
        else .inr p') := by
  have hidx : (hashOf env id+p.i) % t.length < t.length :=
    Nat.mod_lt _ ht.pos
  obtain ⟨p', hsound, hi, hmiss, hfetch⟩ := fetch_eq ht hg hp hidx
  refine ⟨_, _, hsound.cached _ hidx hmiss, hsound.next (p'.i+1), by rw [hi], ?_⟩
  simp only [lookupStep, probeIdx_eq env ht.dvd, hfetch, Result.ok_bind, isSlotEmpty_eq,
    decide_eq_true_eq, Result.pure_eq]
  split <;> [rfl; split <;> rfl]

/-- On a file that does not change, the loop looks at the slots of the table one by one. -/
theorem lookupLoop_eq (env : Env) {fs : FileSystem} {inode : Nat} {t : List SHA1Hash}
    (ht : Readable fs inode t) (id : SHA1Hash) {d : Nat}
    (hstop : slot .zero t (hashOf env id) d = id ∨ slot .zero t (hashOf env id) d = .zero)
    (hbefore : ∀ j < d, slot .zero t (hashOf env id) j ≠ id ∧ slot .zero t (hashOf env id) j ≠ .zero)
    (fuel : Nat) (p : Probe) (hp : p.Sound inode t t) (hi : p.i ≤ d) (hfuel : d < p.i+fuel) :
    lookupLoop env fs t.length id fuel p = .ok
      (if slot .zero t (hashOf env id) d = id then .yes
      else .no ((hashOf env id+d) % t.length)) := by
  induction fuel generalizing p with
  | zero => omega
  | succ fuel ih =>
    obtain ⟨s, p', hs, hp', hi', hstep⟩ := lookupStep_eq env ht (.refl t) hp id
    have hs' : s = slot .zero t (hashOf env id) p.i := hs.eq
    rw [lookupLoop, hstep, Result.ok_bind, hs']
    cases Nat.lt_or_eq_of_le hi with
    | inl hlt =>
      rw [if_neg (hbefore p.i hlt).1, if_neg (hbefore p.i hlt).2]
      exact ih p' hp' (by omega) (by omega)
    | inr heq =>
      rw [heq]
      by_cases hyes : slot .zero t (hashOf env id) d = id
      · rw [if_pos hyes, if_pos hyes]
        rfl
      · rw [if_neg hyes, if_neg hyes, if_pos (hstop.resolve_left hyes)]
        rfl

/-- `lookup` on a table that is not full ends at the first slot that is the id or empty. -/
theorem lookup_eq (env : Env) {fs : FileSystem} {file : File} {t : List SHA1Hash}
    (ht : Holds fs file.inode t) (hfull : occupied .zero t < t.length) (id : SHA1Hash) :
    ∃ d < t.length,
      (slot .zero t (hashOf env id) d = id ∨ slot .zero t (hashOf env id) d = .zero) ∧
      (∀ j < d, slot .zero t (hashOf env id) j ≠ id ∧ slot .zero t (hashOf env id) j ≠ .zero) ∧
      lookup env fs file t.length id = .ok
        (if slot .zero t (hashOf env id) d = id then .yes
        else .no ((hashOf env id+d) % t.length)) := by
  obtain ⟨d, hd, hstop, hbefore⟩ := Probing.exists_stop hfull (hashOf env id) id
  refine ⟨d, hd, hstop, hbefore, ?_⟩
  exact lookupLoop_eq env ht.readable id hstop hbefore t.length (.new env file)
    (Probe.sound_new env file t t) (Nat.zero_le d) (by simpa [Probe.new] using hd)

/- `scan`. The last batch is short, and the loop goes over the whole buffer all the same:
   behind the last slots it meets again those that the batch before left there. -/

/-- The loop over batches, slot by slot: `rest` is not yet read, `buf` is the buffer. -/
def scanSlots : Nat → List SHA1Hash → List SHA1Hash → List SHA1Hash
  | 0, _, _ => []
  | nbatches+1, rest, buf =>
    let buf := rest.take kFetchIOBatchSize ++ buf.drop (rest.take kFetchIOBatchSize).length
    buf ++ scanSlots nbatches (rest.drop kFetchIOBatchSize) buf

theorem batchSlots_flatMap {buf : List SHA1Hash} (h : buf.length = kFetchIOBatchSize) :
    batchSlots (buf.flatMap SHA1Hash.hash) = buf.filter (· ≠ .zero) := by
  have hmap : (List.range kFetchIOBatchSize).map (slotAt (buf.flatMap SHA1Hash.hash)) = buf := by
    apply List.ext_getElem
    · rw [List.length_map, List.length_range, h]
    · intro i _ hi
      rw [List.getElem_map, List.getElem_range]
      simpa using slotAt_flatMap hi []
  rw [batchSlots, hmap]
  simp

theorem overwrite_flatMap (buf data : List SHA1Hash) :
    overwrite (buf.flatMap SHA1Hash.hash) (data.flatMap SHA1Hash.hash) =
      (data ++ buf.drop data.length).flatMap SHA1Hash.hash := by
  rw [overwrite, Records.length_flatMap SHA1Hash.size_eq, Records.drop_flatMap SHA1Hash.size_eq,
    List.flatMap_append]

theorem scanLoop_eq {fs : FileSystem} (nbatches : Nat) {file : File} {rest buf : List SHA1Hash}
    (hrest : (fs.content file.inode).drop file.pos = rest.flatMap SHA1Hash.hash)
    (hbuf : buf.length = kFetchIOBatchSize) :
    scanLoop fs nbatches file (buf.flatMap SHA1Hash.hash) =
      (scanSlots nbatches rest buf).filter (· ≠ .zero) := by
  induction nbatches generalizing file rest buf with
  | zero => rfl
  | succ nbatches ih =>
    have hdata : ((fs.content file.inode).drop file.pos).take (kFetchIOBatchSize*SHA1Hash.kSize) =
        (rest.take kFetchIOBatchSize).flatMap SHA1Hash.hash := by
      rw [hrest, Nat.mul_comm]
      exact Records.take_flatMap SHA1Hash.size_eq rest kFetchIOBatchSize
    have hlen : (rest.take kFetchIOBatchSize ++
        buf.drop (rest.take kFetchIOBatchSize).length).length = kFetchIOBatchSize := by
      rw [List.length_append, List.length_drop, hbuf, List.length_take]
      omega
    simp only [scanLoop, File.read, hdata, overwrite_flatMap]
    rw [batchSlots_flatMap hlen, scanSlots]
    generalize rest.take kFetchIOBatchSize ++
      buf.drop (rest.take kFetchIOBatchSize).length = next at hlen ⊢
    rw [List.filter_append]
    congr 1
    apply ih _ hlen
    change (fs.content file.inode).drop (file.pos+_) = _
    rw [← List.drop_drop, hrest, Records.length_flatMap SHA1Hash.size_eq, List.length_take,
      Records.drop_flatMap SHA1Hash.size_eq]
    cases Nat.le_total kFetchIOBatchSize rest.length with
    | inl hle => rw [Nat.min_eq_left hle]
    | inr hge => rw [Nat.min_eq_right hge, List.drop_length, List.drop_of_length_le hge]

/-- The slots that the short last batch leaves in the buffer, of a table read from a buffer
that held its first batch. -/
def stale (t : List SHA1Hash) : List SHA1Hash :=
  ((t.drop (kFetchIOBatchSize*(t.length/kFetchIOBatchSize-1))).take kFetchIOBatchSize).drop
    (t.length % kFetchIOBatchSize)

/-- A batch in front of at least one whole batch does not matter. -/
theorem stale_append {rest buf : List SHA1Hash} (hbuf : buf.length = kFetchIOBatchSize)
    (hrest : kFetchIOBatchSize ≤ rest.length) : stale (buf ++ rest) = stale rest := by
  have hdiv : (kFetchIOBatchSize+rest.length)/kFetchIOBatchSize-1 =
      rest.length/kFetchIOBatchSize-1+1 := by
    have hpos := Nat.div_pos hrest (by decide)
    rw [Nat.add_div_left _ (by decide)]
    omega
  rw [stale, List.length_append, hbuf, hdiv, Nat.add_mod_left, Nat.mul_add, Nat.mul_one,
    Nat.add_comm (_*_), ← hbuf, ← List.drop_drop, List.drop_left, hbuf, stale]

theorem scanSlots_eq (c : Nat) {rest buf : List SHA1Hash} (hbuf : buf.length = kFetchIOBatchSize)
    (hc : rest.length/kFetchIOBatchSize = c) (hr : 0 < rest.length % kFetchIOBatchSize) :
    scanSlots (c+1) rest buf = rest ++ stale (buf ++ rest) := by
  induction c generalizing rest buf with
  | zero =>
    have hlt : rest.length < kFetchIOBatchSize := by
      by_contra hge
      have hpos := Nat.div_pos (Nat.not_lt.1 hge) (by decide)
      omega
    have htake : rest.take kFetchIOBatchSize = rest := List.take_of_length_le (by omega)
    have hdiv : (kFetchIOBatchSize+rest.length)/kFetchIOBatchSize-1 = 0 := by
      rw [Nat.add_div_left _ (by decide), hc]
    have hmod : (kFetchIOBatchSize+rest.length) % kFetchIOBatchSize = rest.length := by
      rw [Nat.add_mod_left, Nat.mod_eq_of_lt hlt]
    rw [scanSlots, htake, stale, List.length_append, hbuf, hdiv, hmod, Nat.mul_zero, List.drop_zero,
      ← hbuf, List.take_left]
    simp [scanSlots]
  | succ c ih =>
    have hge : kFetchIOBatchSize ≤ rest.length := by
      by_contra hlt
      rw [Nat.div_eq_of_lt (Nat.not_le.1 hlt)] at hc
      cases hc
    have htake : (rest.take kFetchIOBatchSize).length = kFetchIOBatchSize := by
      rw [List.length_take, Nat.min_eq_left hge]
    have hsplit : rest.length = (rest.drop kFetchIOBatchSize).length+kFetchIOBatchSize := by
      rw [List.length_drop]
      omega
    have hc' : (rest.drop kFetchIOBatchSize).length/kFetchIOBatchSize = c := by
      rw [hsplit, Nat.add_div_right _ (by decide)] at hc
      omega
    have hr' : 0 < (rest.drop kFetchIOBatchSize).length % kFetchIOBatchSize := by
      rwa [hsplit, Nat.add_mod_right] at hr
    have hbatch : rest.take kFetchIOBatchSize ++ buf.drop (rest.take kFetchIOBatchSize).length =
        rest.take kFetchIOBatchSize := by
      rw [htake, ← hbuf, List.drop_length, List.append_nil]
    rw [scanSlots, hbatch, ih htake hc' hr', stale_append hbuf hge, ← List.append_assoc,
      List.take_append_drop]

/-- The slots on which `scan` calls its callback: those in use, then the stale ones. -/
def visited (t : List SHA1Hash) : List SHA1Hash := keys .zero t ++ keys .zero (stale t)

/-- A first batch that fills the buffer hides what `malloc` left there. -/
theorem scanLoop_fresh (fs : FileSystem) (nbatches : Nat) (file : File) {buf buf' : Bytes}
    (hbuf : buf.length ≤ (file.read fs (kFetchIOBatchSize*SHA1Hash.kSize)).1.length)
    (hbuf' : buf'.length ≤ (file.read fs (kFetchIOBatchSize*SHA1Hash.kSize)).1.length) :
    scanLoop fs (nbatches+1) file buf = scanLoop fs (nbatches+1) file buf' := by
  simp only [scanLoop, overwrite, List.drop_of_length_le hbuf, List.drop_of_length_le hbuf']

theorem scan_eq (env : Env) {fs : FileSystem} {file : File} {t : List SHA1Hash}
    (ht : Holds fs file.inode t) : scan env fs file t.length = .ok (visited t) := by
  have hge : kFetchIOBatchSize ≤ t.length := Nat.le_trans (by decide) ht.size.ge
  have hle := ht.size.le
  have hmod := ht.size.mod_pos
  have hbatches : (t.length+kFetchIOBatchSize-1) % 2^64/kFetchIOBatchSize =
      t.length/kFetchIOBatchSize+1 := by
    simp only [kFetchIOBatchSize] at hmod ⊢
    omega
  have htake : (t.take kFetchIOBatchSize).length = kFetchIOBatchSize := by
    rw [List.length_take, Nat.min_eq_left hge]
  have hrest : (fs.content file.inode).drop headerSize = t.flatMap SHA1Hash.hash := by
    rw [ht.content_eq]
    exact drop_image t 0
  have hread : ({ file with pos := headerSize } : File).read fs (kFetchIOBatchSize*SHA1Hash.kSize) =
      ((t.take kFetchIOBatchSize).flatMap SHA1Hash.hash,
        ⟨file.inode, headerSize+((t.take kFetchIOBatchSize).flatMap SHA1Hash.hash).length⟩) := by
    rw [File.read, hrest, Nat.mul_comm, SHA1Hash.kSize, Records.take_flatMap SHA1Hash.size_eq]
  have hlen : ((t.take kFetchIOBatchSize).flatMap SHA1Hash.hash).length =
      kFetchIOBatchSize*SHA1Hash.kSize := by
    rw [Records.length_flatMap SHA1Hash.size_eq, htake]
    rfl
  have hfresh : scanLoop fs (t.length/kFetchIOBatchSize+1) { file with pos := headerSize }
      (env.malloc (kFetchIOBatchSize*SHA1Hash.kSize)) =
      scanLoop fs (t.length/kFetchIOBatchSize+1) { file with pos := headerSize }
        ((t.take kFetchIOBatchSize).flatMap SHA1Hash.hash) :=
    scanLoop_fresh fs _ _ (by rw [hread, env.length_malloc, hlen]) (by rw [hread])
  rw [scan, seekTo_eq file (by decide), Result.ok_bind, hbatches]
  simp only [hfresh, Result.pure_eq]
  rw [scanLoop_eq _ hrest htake, scanSlots_eq _ htake rfl hmod, stale_append htake hge,
    List.filter_append]
  rfl

theorem mem_visited {t : List SHA1Hash} {id : SHA1Hash} :
    id ∈ visited t ↔ id ∈ t ∧ id ≠ .zero := by
  rw [visited, List.mem_append, Probing.mem_keys, Probing.mem_keys]
  constructor
  · rintro (h | ⟨h, hne⟩)
    · exact h
    · exact ⟨List.mem_of_mem_drop (List.mem_of_mem_take (List.mem_of_mem_drop h)), hne⟩
  · exact .inl

def staleUsed (t : List SHA1Hash) : Nat := occupied .zero (stale t)

theorem length_visited (t : List SHA1Hash) :
    (visited t).length = occupied .zero t+staleUsed t := List.length_append

theorem staleUsed_lt {t : List SHA1Hash} (h : ValidSize t.length) : staleUsed t < 200 := by
  have hocc : staleUsed t ≤ (stale t).length := Probing.occupied_le
  have hmod := h.mod_pos
  rw [stale, List.length_drop, List.length_take] at hocc
  simp only [kFetchIOBatchSize] at hocc hmod
  omega

/- `grow`. -/

theorem firstEmpty_eq (env : Env) {t : List SHA1Hash} (ht : t.length ∣ 2^64) (id : SHA1Hash)
    {d : Nat} (hempty : slot .zero t (hashOf env id) d = .zero)
    (hpath : Path .zero t (hashOf env id) d) (fuel i : Nat) (hi : i ≤ d) (hfuel : d < i+fuel) :
    firstEmpty env t id fuel i = some ((hashOf env id+d) % t.length) := by
  induction fuel generalizing i with
  | zero => omega
  | succ fuel ih =>
    rw [firstEmpty, probeIdx_eq env ht, isSlotEmpty_eq]
    cases Nat.lt_or_eq_of_le hi with
    | inl hlt =>
      rw [if_neg (by rw [decide_eq_true_iff]; exact hpath i hlt)]
      exact ih (i+1) (by omega) (by omega)
    | inr heq =>
      subst heq
      exact if_pos (decide_eq_true hempty)

/-- A slot finds a place in a table that is not full. -/
theorem place_eq (env : Env) {t : List SHA1Hash} (ht : t.length ∣ 2^64)
    (hfull : occupied .zero t < t.length) (id : SHA1Hash) :
    ∃ d < t.length, slot .zero t (hashOf env id) d = .zero ∧ Path .zero t (hashOf env id) d ∧
      firstEmpty env t id t.length 0 = some ((hashOf env id+d) % t.length) ∧
      place env t id = t.set ((hashOf env id+d) % t.length) id := by
  obtain ⟨d, hd, hstop, hbefore⟩ := Probing.exists_stop hfull (hashOf env id) .zero
  have hempty : slot .zero t (hashOf env id) d = .zero := (or_self_iff).1 hstop
  have hpath : Path .zero t (hashOf env id) d := fun j hj => (hbefore j hj).1
  have hfirst := firstEmpty_eq env ht id hempty hpath t.length 0 (Nat.zero_le d) (by omega)
  exact ⟨d, hd, hempty, hpath, hfirst, by rw [place, hfirst]⟩

/-- The slots of a list, none of them empty, are all placed if there is room. -/
theorem foldl_place (env : Env) (ids : List SHA1Hash) {t : List SHA1Hash} (ht : t.length ∣ 2^64)
    (hplaced : WellPlaced .zero (hashOf env) t) (hids : ∀ id ∈ ids, id ≠ .zero)
    (hroom : occupied .zero t+ids.length ≤ t.length) :
    (ids.foldl (place env) t).length = t.length ∧
    WellPlaced .zero (hashOf env) (ids.foldl (place env) t) ∧
    (keys .zero (ids.foldl (place env) t)).Perm (ids ++ keys .zero t) := by
  induction ids generalizing t with
  | nil => exact ⟨rfl, hplaced, .refl _⟩
  | cons x ids ih =>
    rw [List.length_cons] at hroom
    obtain ⟨d, hd, hempty, hpath, -, hplace⟩ := place_eq env ht (by omega) x
    have hx : x ≠ .zero := hids x List.mem_cons_self
    have hp : (hashOf env x+d) % t.length < t.length := Nat.mod_lt _ (by omega)
    have hkeys := Probing.keys_set hp hempty hx
    have hocc : occupied .zero (t.set ((hashOf env x+d) % t.length) x) = occupied .zero t+1 :=
      hkeys.length_eq
    have hlen : (t.set ((hashOf env x+d) % t.length) x).length = t.length := List.length_set
    rw [List.foldl_cons, hplace]
    obtain ⟨h₁, h₂, h₃⟩ := ih (by rwa [hlen]) (hplaced.set hd hempty hpath)
      (fun id hid => hids id (List.mem_cons_of_mem _ hid)) (by rw [hocc, hlen]; omega)
    refine ⟨h₁.trans hlen, h₂, h₃.trans ?_⟩
    exact (hkeys.append_left ids).trans List.perm_middle

/-- The table that `grow` writes: the visited slots, in the places where a search finds them. -/
theorem rehash_spec (env : Env) {n : Nat} (hn : n ∣ 2^64) {ids : List SHA1Hash}
    (hids : ∀ id ∈ ids, id ≠ .zero) (hroom : ids.length ≤ n) :
    (rehash env n ids).length = n ∧ WellPlaced .zero (hashOf env) (rehash env n ids) ∧
      (keys .zero (rehash env n ids)).Perm ids := by
  have hlen : (List.replicate n SHA1Hash.zero).length = n := List.length_replicate
  have hkeys : keys .zero (List.replicate n SHA1Hash.zero) = [] := Probing.keys_replicate n
  have hfold := foldl_place env ids (t := List.replicate n .zero) (by rwa [hlen])
    (Probing.wellPlaced_replicate n) hids (by rw [hlen, occupied, hkeys, List.length_nil]; omega)
  rw [hlen, hkeys, List.append_nil] at hfold
  exact hfold

end Stx.PersistentHashSet
