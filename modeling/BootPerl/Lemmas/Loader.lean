import BootPerl.Lemmas.Build
import BootPerl.Loader

/-!
# What the stages read

The loader over the records of a list of runs: each run is read once, and moved to where the last one ended.
-/

namespace BootPerl

/-! ## Records -/

/-- What the stages ask for when they load the bytes of an address. -/
def requestAt (n c : Nat) : Request := { cx := n % 18 + 1 + 256 * (n / 36), dx := 256 * (n / 18 % 2), al := c }

theorem fetch_sectorAt {m : Mem} {a n c : Nat} (h : Bytes m a (sectorAt n c).bytes) (hn : n < 2880) (hc : c ≤ 36) :
    fetch m a = requestAt n c := by
  have hcx : m.load (a + 0) 2 = _ := (h.slice 0 2).load_eq
  have hdx : m.load (a + 2) 2 = _ := (h.slice 2 2).load_eq
  have hal : m.load (a + 4) 1 = _ := (h.slice 4 1).load_eq
  have hnat : ∀ k : Nat, (UInt8.ofNat k).toNat = k % 256 := fun k => UInt8.toNat_ofNat'
  rw [Nat.add_zero] at hcx
  simp only [SectAddr.bytes, sectorAt, List.drop_zero, List.drop_succ_cons, List.take_succ_cons, List.take_zero, leNat,
    hnat] at hcx hdx hal
  rw [fetch, hcx, hdx, hal, requestAt, Request.mk.injEq]
  refine ⟨by omega, by omega, by omega⟩

theorem first_requestAt (n c : Nat) : (requestAt n c).first = n := by
  simp only [Request.first, Request.track, Request.head, Request.sector, requestAt]
  omega

theorem requestAt_oneCylinder {n c : Nat} (hn : n < 2880) (hc : 0 < c) (hin : n % 36 + c ≤ 36) :
    (requestAt n c).OneCylinder := by
  refine ⟨?_, ?_, ?_, ?_, hc, ?_⟩
  · simp only [Request.device, requestAt]
    omega
  · simp only [Request.track, requestAt]
    omega
  · simp only [Request.head, requestAt]
    omega
  · simp only [Request.sector, requestAt]
    omega
  · simp only [Request.head, Request.sector, requestAt]
    omega

theorem requestAt_cx_pos (n c : Nat) : (requestAt n c).cx ≠ 0 := by
  simp only [requestAt]
  omega

/-! ## Reads and moves -/

section
variable {bios : Bios} {image : List UInt8}

theorem length_diskBytes {n c : Nat} (hfit : 512 * (n + c) ≤ image.length) : (diskBytes image n c).length = 512 * c := by
  rw [diskBytes, List.length_take, List.length_drop]
  omega

/-- A string elsewhere stays. -/
theorem Elsewhere.bytes {m m' : Mem} {a b n : Nat} {bs : List UInt8} (h : Elsewhere a n m m') (hm : Bytes m b bs)
    (hapart : b + bs.length ≤ a ∨ a + n ≤ b) (hlow : 0x500 ≤ b) (hstack : b + bs.length ≤ 0x8a200 ∨ 0x8b000 ≤ b) :
    Bytes m' b bs := by
  refine hm.congr fun x hx hx' => h x (by omega) ?_
  unfold BiosArea
  omega

/-- A read of a run that lies in one cylinder and in the image. -/
theorem Delivers.read_requestAt (hd : Delivers bios image) {n c a : Nat} (hfloppy : n < 2880) (hc : 0 < c)
    (hin : n % 36 + c ≤ 36) (hfit : 512 * (n + c) ≤ image.length) (hbuf : Buffer a (512 * c)) (m : Mem) :
    (bios.read (requestAt n c) a m).carry = false ∧ (bios.read (requestAt n c) a m).al = c ∧
      Bytes (bios.read (requestAt n c) a m).mem a (diskBytes image n c) ∧
      Elsewhere a (512 * c) m (bios.read (requestAt n c) a m).mem := by
  have h := hd.read (requestAt n c) a m (requestAt_oneCylinder hfloppy hc hin)
  rw [first_requestAt] at h
  exact h hfit hbuf

theorem Delivers.cread_requestAt (hd : Delivers bios image) {n c a : Nat} (hfloppy : n < 2880) (hc : 0 < c)
    (hin : n % 36 + c ≤ 36) (hfit : 512 * (n + c) ≤ image.length) (hbuf : Buffer a (512 * c)) (s : Loader) :
    ∃ m, cread bios s (requestAt n c) a = ({ mem := m, reads := s.reads ++ [requestAt n c] }, false, c) ∧
      Bytes m a (diskBytes image n c) ∧ Elsewhere a (512 * c) s.mem m := by
  obtain ⟨hcarry, hal, hbytes, helse⟩ := hd.read_requestAt hfloppy hc hin hfit hbuf s.mem
  have hrw : dskDoRw bios (requestAt n c) a 5 s.mem = bios.read (requestAt n c) a s.mem := by
    rw [dskDoRw, hcarry, if_neg Bool.false_ne_true]
  refine ⟨_, ?_, hbytes, helse⟩
  rw [cread, if_neg (requestAt_cx_pos n c)]
  dsimp only
  rw [hrw, hcarry, hal, if_neg Bool.false_ne_true]

/-- The next move goes `d` sectors above the first megabyte. -/
structure AtDest (s : High) (d : Nat) : Prop where
  low : s.destLow < 65536
  high : s.destHigh < 256
  sum : s.destLow + 65536 * s.destHigh = 0x100000 + 512 * d

/-- Adding the words twice adds their bytes. -/
theorem AtDest.addDest {s : High} {d c : Nat} (h : AtDest s d) (hfloppy : d + c ≤ 2880) :
    AtDest (addDest (addDest s (256 * c)) (256 * c)) (d + c) := by
  have hlow := h.low
  have hhigh := h.high
  have hsum := h.sum
  unfold BootPerl.addDest
  refine ⟨?_, ?_, ?_⟩
  all_goals dsimp only
  all_goals omega

/-- The bytes that the load of sector `d` and of those after it leaves: the second stage, the map, and the sectors before. -/
def Settled (d x : Nat) : Prop := (secondSeg ≤ x ∧ x < 0xa0000) ∨ (0x100000 ≤ x ∧ x < 0x100000 + 512 * d)

theorem Delivers.rdhigh_requestAt (hd : Delivers bios image) {n c d : Nat} {s : High} (hfloppy : n < 2880) (hc : 0 < c)
    (hin : n % 36 + c ≤ 36) (hfit : 512 * (n + c) ≤ image.length) (hdest : AtDest s d) (hroom : d + c ≤ 2880) :
    ∃ s', rdhigh bios s (requestAt n c) = .ok s' ∧ s'.reads = s.reads ++ [requestAt n c] ∧ s'.moff = s.moff ∧
      AtDest s' (d + c) ∧ Bytes s'.mem (0x100000 + 512 * d) (diskBytes image n c) ∧ ∀ x, Settled d x → s'.mem.byte x = s.mem.byte x := by
  have hbuf : Buffer sysSeg (512 * c) := by
    unfold sysSeg
    refine ⟨by omega, by omega, Or.inl (by omega), by omega⟩
  obtain ⟨m, hcread, hbytes, helse⟩ := hd.cread_requestAt hfloppy hc hin hfit hbuf s.toLoader
  obtain ⟨m', hmove, hcopy, helse'⟩ := hd.move (256 * c) sysSeg (0x100000 + 512 * d) m (by omega) (by omega) (by decide)
    (by unfold sysSeg; omega) (by omega) (by omega)
  have hmoved : AtDest { s with mem := m', reads := s.reads ++ [requestAt n c] } d := ⟨hdest.low, hdest.high, hdest.sum⟩
  refine ⟨addDest (addDest { s with mem := m', reads := s.reads ++ [requestAt n c] } (256 * c)) (256 * c), ?_, rfl, rfl,
    hmoved.addDest hroom, ?_, ?_⟩
  · rw [rdhigh, hcread]
    dsimp only
    rw [hdest.sum, hmove, if_neg Bool.false_ne_true]
  · intro i b hi
    have hlt := (List.getElem?_eq_some_iff.1 hi).1
    rw [length_diskBytes hfit] at hlt
    exact (hcopy i (by omega)).trans (hbytes i b hi)
  · intro x hx
    unfold Settled secondSeg at hx
    have hnot : ¬BiosArea x := by unfold BiosArea; omega
    exact (helse' x (by omega) hnot).trans (helse x (by unfold sysSeg; omega) hnot)

/-- The runs of a list lie in the image, each in one cylinder. -/
def InImage (image : List UInt8) (es : List (Nat × Nat)) : Prop :=
  ∀ e ∈ es, 0 < e.2 ∧ e.1 % 36 + e.2 ≤ 36 ∧ 512 * (e.1 + e.2) ≤ image.length

theorem fetch_zero {m : Mem} {a : Nat} (h : Bytes m a [0, 0, 0, 0]) : (fetch m a).cx = 0 ∧ (fetch m a).dx = 0 :=
  ⟨(h.slice 0 2).load_eq, (h.slice 2 2).load_eq⟩

/-- The loop over a map that holds the records of some runs and then zeros: each run is read once, in order, and moved to where the
one before it ended. The induction is on the runs that are left. -/
theorem Delivers.lfile_runs (hd : Delivers bios image) (himage : image.length ≤ 512 * 2880) {es : List (Nat × Nat)} :
    ∀ (counter : Nat) {s : High} {d : Nat}, InImage image es → AtDest s d → d + (es.map Prod.snd).sum ≤ 2880 →
      es.length + 1 < counter → s.moff + 5 * es.length + 4 ≤ 1024 →
      Bytes s.mem (secondSeg + mapOff + s.moff) (mapBytes es ++ [0, 0, 0, 0]) →
      ∃ s', lfile bios counter s = .ok (s', counter - (es.length + 1)) ∧
        s'.reads = s.reads ++ es.map (fun e => requestAt e.1 e.2) ∧ s'.moff = s.moff + 5 * es.length ∧
        Bytes s'.mem (0x100000 + 512 * d) (es.flatMap fun e => diskBytes image e.1 e.2) ∧
        ∀ x, Settled d x → s'.mem.byte x = s.mem.byte x := by
  induction es with
  | nil =>
    intro counter s d _ _ _ hcounter hmoff hmap
    rw [List.length_nil] at hcounter hmoff
    obtain ⟨counter, rfl⟩ := Nat.exists_eq_add_of_le' (Nat.lt_of_le_of_lt (Nat.zero_le _) hcounter)
    obtain ⟨hcx, hdx⟩ := fetch_zero hmap
    have haddr : secondSeg + (mapOff + s.moff) % 65536 = secondSeg + mapOff + s.moff := by unfold secondSeg mapOff; omega
    refine ⟨s, ?_, (List.append_nil _).symm, rfl, bytes_nil, fun x _ => rfl⟩
    rw [lfile, haddr, if_neg (by omega), if_pos ⟨hcx, hdx⟩]
    rfl
  | cons e es ih =>
    intro counter s d hin hdest hroom hcounter hmoff hmap
    obtain ⟨n, c⟩ := e
    obtain ⟨hc, hgroup, hfit⟩ := hin (n, c) List.mem_cons_self
    rw [List.length_cons] at hcounter hmoff
    rw [List.map_cons, List.sum_cons] at hroom
    rw [mapBytes_cons, List.append_assoc, bytes_append, length_bytes] at hmap
    dsimp only at hc hgroup hfit hroom
    obtain ⟨counter, rfl⟩ := Nat.exists_eq_add_of_le' (Nat.lt_of_le_of_lt (Nat.zero_le _) hcounter)
    have haddr : secondSeg + (mapOff + s.moff) % 65536 = secondSeg + mapOff + s.moff := by unfold secondSeg mapOff; omega
    have hfetch := fetch_sectorAt hmap.1 (by omega) (by omega)
    obtain ⟨s₁, hstep, hreads, hmoff₁, hdest₁, hbytes, hkeep⟩ :=
      hd.rdhigh_requestAt (s := { s with moff := (s.moff + 5) % 65536 }) (d := d) (by omega) hc hgroup hfit
        ⟨hdest.low, hdest.high, hdest.sum⟩ (by omega)
    have hoff : s₁.moff = s.moff + 5 := hmoff₁.trans (Nat.mod_eq_of_lt (by omega))
    have hmap₁ : Bytes s₁.mem (secondSeg + mapOff + s₁.moff) (mapBytes es ++ [0, 0, 0, 0]) := by
      rw [hoff]
      refine hmap.2.congr fun x hx hx' => hkeep x (Or.inl ?_)
      rw [List.length_append, length_mapBytes] at hx'
      simp only [List.length_cons, List.length_nil] at hx'
      unfold secondSeg mapOff at hx hx'
      unfold secondSeg
      omega
    obtain ⟨s', hrun, hreads', hmoff', hbytes', hkeep'⟩ := ih counter
      (fun e he => hin e (List.mem_cons_of_mem _ he)) hdest₁ (by omega) (by omega) (by omega) hmap₁
    refine ⟨s', ?_, ?_, ?_, ?_, ?_⟩
    · rw [lfile, haddr, hfetch, if_neg (by omega), if_neg fun h => requestAt_cx_pos n c h.1, hstep, Outcome.bind_ok, hrun,
        List.length_cons]
      congr 2
      omega
    · rw [hreads', hreads, List.append_assoc, List.map_cons]
      rfl
    · rw [hmoff', hoff, List.length_cons]
      omega
    · rw [List.flatMap_cons, bytes_append, length_diskBytes hfit]
      refine ⟨hbytes.congr fun x hx hx' => hkeep' x (Or.inr ⟨by omega, ?_⟩), ?_⟩
      · rw [length_diskBytes hfit] at hx'
        omega
      · rwa [Nat.mul_add, ← Nat.add_assoc] at hbytes'
    · intro x hx
      refine (hkeep' x ?_).trans (hkeep x hx)
      unfold Settled at hx ⊢
      omega

/-! ## Runs of sectors -/

theorem diskBytes_middle {pre mid post : List UInt8} {n k : Nat} (hpre : pre.length = 512 * n) (hmid : mid.length = 512 * k) :
    diskBytes (pre ++ mid ++ post) n k = mid := by
  rw [diskBytes, List.append_assoc, List.drop_left' hpre, List.take_left' hmid]

theorem diskBytes_append (image : List UInt8) (n a b : Nat) :
    diskBytes image n a ++ diskBytes image (n + a) b = diskBytes image n (a + b) := by
  rw [diskBytes, diskBytes, diskBytes, Nat.mul_add, Nat.mul_add, List.take_add, List.drop_drop]

/-- The pieces of a run hold its bytes. -/
theorem flatMap_diskBytes (image : List UInt8) (n k : Nat) :
    (extents 36 n k).flatMap (fun e => diskBytes image e.1 e.2) = diskBytes image n k := by
  induction n, k using extents.induct 36 with
  | case1 n => rw [extents_zero, List.flatMap_nil, diskBytes, Nat.mul_zero, List.take_zero]
  | case2 n k hk ih =>
    have hsum : min k (36 - n % 36) + (k - min k (36 - n % 36)) = k := by omega
    rw [extents_cons (by omega), List.flatMap_cons, ih, diskBytes_append, hsum]

theorem inImage_extents {n k : Nat} (hfit : 512 * (n + k) ≤ image.length) : InImage image (extents 36 n k) := by
  intro e he
  obtain ⟨hpos, hgroup, -, hlast⟩ := extents_inside he
  exact ⟨hpos, hgroup, by omega⟩

theorem sectors_requestAt (n c : Nat) : (requestAt n c).sectors = List.range' n c := by
  rw [Request.sectors, first_requestAt]
  rfl

/-- The sectors that the records of some runs ask for. -/
theorem flatMap_sectors (es : List (Nat × Nat)) :
    (es.map fun e => requestAt e.1 e.2).flatMap Request.sectors = es.flatMap fun e => List.range' e.1 e.2 := by
  induction es with
  | nil => rfl
  | cons e es ih => rw [List.map_cons, List.flatMap_cons, List.flatMap_cons, ih, sectors_requestAt]

theorem InImage.oneCylinder {es : List (Nat × Nat)} (h : InImage image es) (himage : image.length ≤ 512 * 2880) :
    ∀ r ∈ es.map (fun e => requestAt e.1 e.2), r.OneCylinder := by
  intro r hr
  obtain ⟨e, he, rfl⟩ := List.mem_map.1 hr
  obtain ⟨hpos, hgroup, hfit⟩ := h e he
  exact requestAt_oneCylinder (by omega) hpos hgroup

/-- The records of some runs, as they are fetched. -/
theorem map_fetch {m : Mem} {es : List (Nat × Nat)} (himage : image.length ≤ 512 * 2880) :
    ∀ {a : Nat}, InImage image es → Bytes m a (mapBytes es) →
      (List.range es.length).map (fun j => fetch m (a + 5 * j)) = es.map fun e => requestAt e.1 e.2 := by
  induction es with
  | nil => intro a _ _; rfl
  | cons e es ih =>
    intro a hin h
    obtain ⟨n, c⟩ := e
    obtain ⟨hpos, hgroup, hfit⟩ := hin (n, c) List.mem_cons_self
    rw [mapBytes_cons, bytes_append, length_bytes] at h
    dsimp only at hpos hgroup hfit
    have hrest := ih (fun e he => hin e (List.mem_cons_of_mem _ he)) h.2
    have hfirst := fetch_sectorAt h.1 (by omega) (by omega)
    rw [List.length_cons, List.range_succ_eq_map, List.map_cons, List.map_cons, ← hrest, List.map_map, Nat.mul_zero, Nat.add_zero,
      hfirst]
    refine congrArg _ (List.map_congr_left fun j _ => ?_)
    dsimp only [Function.comp]
    congr 1
    omega

/-! ## The parts of the image -/

section
variable {bootsect second kernel : List UInt8}

theorem kernelRuns_length_le (hl : Layout bootsect second kernel image) : (kernelRuns second kernel).length ≤ 81 :=
  (length_kernelRuns hl.floppy).1

theorem length_mapPart (hl : Layout bootsect second kernel image) : (mapPart second kernel).length = 1024 :=
  (length_kernelRuns hl.floppy).2

theorem Layout.length_image (hl : Layout bootsect second kernel image) :
    image.length = 512 * (3 + sectors second.length + sectors kernel.length) := by
  rw [hl.image_eq, List.length_append, List.length_append, List.length_append, length_bsectPart, length_secondPart,
    length_mapPart hl, length_kernelPart]
  omega

theorem Layout.diskBytes_bsect (hl : Layout bootsect second kernel image) : image.take 512 = bsectPart bootsect second := by
  rw [hl.image_eq, List.append_assoc, List.append_assoc, List.take_left' (length_bsectPart bootsect second)]

theorem Layout.diskBytes_second (hl : Layout bootsect second kernel image) :
    diskBytes image 1 (sectors second.length) = secondPart second := by
  rw [hl.image_eq, List.append_assoc]
  exact diskBytes_middle (length_bsectPart bootsect second) ((length_secondPart second).trans (Nat.mul_comm _ _))

theorem Layout.diskBytes_map (hl : Layout bootsect second kernel image) :
    diskBytes image (1 + sectors second.length) 2 = mapPart second kernel := by
  rw [hl.image_eq]
  refine diskBytes_middle ?_ (length_mapPart hl)
  rw [List.length_append, length_bsectPart, length_secondPart]
  omega

theorem Layout.diskBytes_kernel (hl : Layout bootsect second kernel image) :
    diskBytes image (3 + sectors second.length) (sectors kernel.length) = kernelPart kernel := by
  rw [hl.image_eq, ← List.append_nil (_ ++ kernelPart kernel)]
  refine diskBytes_middle ?_ ((length_kernelPart kernel).trans (Nat.mul_comm _ _))
  rw [List.length_append, List.length_append, length_bsectPart, length_secondPart, length_mapPart hl]
  omega

end

end

end BootPerl
