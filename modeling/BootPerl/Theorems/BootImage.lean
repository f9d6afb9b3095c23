import BootPerl.Lemmas.Loader

/-!
# The image and the loader

What `build` writes, the two stages read back: the kernel file and zeros up to a whole sector lie at the first megabyte, every
sector of the image after the first was read once and in order, and no read crosses a cylinder. `build` patches the first record
of each table and leaves the others as the file has them; the stages stop where the next record is zero, as both sources assemble
it. A first stage with a second record is accepted and does not stop there.
-/

namespace BootPerl

/-- The load as it should end: `counter` is what `bsmith_counter` has left. -/
structure Loaded (second kernel : List UInt8) (s : High) (counter : Nat) : Prop where
  placed : Bytes s.mem 0x100000 (kernelPart kernel)
  once : s.reads.flatMap Request.sectors = List.range' 1 (sectors second.length + 2 + sectors kernel.length)
  cylinder : ∀ r ∈ s.reads, r.OneCylinder
  entries : ∃ n, s.moff = 5 * n ∧
    s.reads.drop 2 = (List.range n).map fun j => fetch s.mem (secondSeg + mapOff + 5 * j)
  marker : (fetch s.mem (secondSeg + mapOff + s.moff)).cx = 0 ∧ (fetch s.mem (secondSeg + mapOff + s.moff)).dx = 0
  counter : 0 < counter

section
variable {bios : Bios} {bootsect second kernel image : List UInt8}

/-! ## The parts in memory -/

theorem Bytes.load_headerWord {m : Mem} {a i : Nat} {buf : List UInt8} (h : Bytes m a buf) (hi : i + 1 < buf.length) :
    m.load (a + i) 2 = headerWord buf i := by
  rw [Mem.load, Mem.load, Mem.load, Nat.mul_zero, Nat.add_zero, Nat.add_assoc, h.byte_getD (by omega), h.byte_getD hi]
  rfl

/-- The first stage finds the second in its table. -/
theorem fetch_bsectPart {m : Mem} (hl : Layout bootsect second kernel image)
    (h : Bytes m firstSeg (bsectPart bootsect second)) : fetch m (firstSeg + 16) = requestAt 1 (sectors second.length) := by
  have hsectors := sectors_second hl.small
  exact fetch_sectorAt (h.patched (bsect_room bootsect _)) (by omega) (by omega)

/-- After it comes what the file has there. -/
theorem load_bsectPart {m : Mem} (h : Bytes m firstSeg (bsectPart bootsect second)) {i : Nat} (hi : 21 ≤ i)
    (hi' : i + 1 < 512) : m.load (firstSeg + i) 2 = headerWord bootsect i := by
  have hflag := flag_room bootsect ((readFile 512 bootsect).getD 14 0 &&& 0xfe)
  rw [h.load_headerWord (by rw [length_bsectPart]; exact hi'), bsectPart,
    headerWord_patchAt (bsect_room bootsect _) (Or.inr (by rw [length_bytes]; exact hi)), clearHalt,
    headerWord_patchAt hflag (Or.inr (by rw [List.length_singleton]; omega)), headerWord_readFile bootsect hi']

/-- The halt flag is clear. -/
theorem flags_bsectPart {m : Mem} (h : Bytes m firstSeg (bsectPart bootsect second)) : m.load (firstSeg + 14) 1 % 2 = 0 := by
  have hin := patchAt_inside (flag_room bootsect ((readFile 512 bootsect).getD 14 0 &&& 0xfe)) (i := 0) (Nat.succ_pos 0)
  rw [Nat.add_zero] at hin
  have hbyte : m.byte (firstSeg + 14) = (readFile 512 bootsect).getD 14 0 &&& 0xfe := by
    rw [h.byte_getD (by rw [length_bsectPart]; decide), bsectPart, getD_patchAt (bsect_room bootsect _) (Or.inl (by decide)),
      List.getD_eq_getElem?_getD, clearHalt, hin]
    rfl
  rw [Mem.load, Mem.load, hbyte, Nat.mul_zero, Nat.add_zero, UInt8.toNat_and]
  exact (Nat.and_mod_two_pow (n := 1)).trans (Nat.and_zero _)

/-! ## The first stage -/

/-- The first record: the second stage is read, and the table is still there. -/
theorem Delivers.sload_first (hd : Delivers bios image) (hl : Layout bootsect second kernel image) {m : Mem}
    (hm : Bytes m firstSeg (bsectPart bootsect second)) :
    ∃ m', (∀ fuel reads, sload bios (fuel + 1) { mem := m, reads := reads } dAddr secondOff =
        sload bios fuel { mem := m', reads := reads ++ [requestAt 1 (sectors second.length)] } 21 0x1200) ∧
      Bytes m' firstSeg (bsectPart bootsect second) ∧ Bytes m' secondSeg (secondPart second) := by
  have hsectors := sectors_second hl.small
  have hbuf : Buffer (firstSeg + secondOff) (512 * sectors second.length) := by
    unfold firstSeg secondOff
    refine ⟨by omega, by omega, Or.inr (by omega), by omega⟩
  have hlength := hl.length_image
  have hfetch := fetch_bsectPart hl hm
  obtain ⟨hcarry, -, hbytes, helse⟩ := hd.read_requestAt (n := 1) (by omega) hsectors.1 (by omega) (by omega) hbuf m
  rw [hl.diskBytes_second] at hbytes
  have hfirst := helse.bytes hm (by rw [length_bsectPart]; exact Or.inl (by decide)) (by decide)
    (by rw [length_bsectPart]; exact Or.inl (by decide))
  refine ⟨_, fun fuel reads => ?_, hfirst, hbytes⟩
  have hcx : ¬(requestAt 1 (sectors second.length)).cx ||| (requestAt 1 (sectors second.length)).dx = 0 :=
    fun h => requestAt_cx_pos 1 _ (Nat.or_eq_zero_iff.1 h).1
  rw [sload]
  dsimp only
  rw [dAddr, hfetch, if_neg hcx, hcarry, if_neg Bool.false_ne_true]
  rfl

/-- The first stage reads the second in one read and stops at the next record. -/
theorem Delivers.sload_runs (hd : Delivers bios image) (hl : Layout bootsect second kernel image)
    (htable : headerWord bootsect 21 = 0 ∧ headerWord bootsect 23 = 0) {m : Mem}
    (hm : Bytes m firstSeg (bsectPart bootsect second)) :
    ∃ m', (∀ fuel, 2 ≤ fuel → sload bios fuel { mem := m, reads := [] } dAddr secondOff =
        .ok { mem := m', reads := [requestAt 1 (sectors second.length)] }) ∧
      Bytes m' firstSeg (bsectPart bootsect second) ∧ Bytes m' secondSeg (secondPart second) := by
  obtain ⟨m', hrun, hfirst, hsecond⟩ := hd.sload_first hl hm
  refine ⟨m', fun fuel hfuel => ?_, hfirst, hsecond⟩
  obtain ⟨k, rfl⟩ := Nat.exists_eq_add_of_le' hfuel
  have hcx : (fetch m' (firstSeg + 21)).cx = 0 := (load_bsectPart hfirst (by decide) (by decide)).trans htable.1
  have hdx : (fetch m' (firstSeg + 21)).dx = 0 := (load_bsectPart hfirst (i := 23) (by decide) (by decide)).trans htable.2
  rw [hrun (k + 1), sload]
  dsimp only
  rw [if_pos (Nat.or_eq_zero_iff.2 ⟨hcx, hdx⟩)]
  rfl

/-! ## The second stage -/

/-- The header that `build` checked is the one that the stage checks. -/
theorem verified_secondPart {m : Mem} (hl : Layout bootsect second kernel image) (h : Bytes m secondSeg (secondPart second)) :
    Verified m := by
  have hsectors := sectors_second hl.small
  have hlen := length_readFile (sectors second.length * 512) second
  have hword : ∀ i, i + 1 < 16 → m.load (secondSeg + i) 2 = headerWord (readFile (sectors second.length * 512) second) i := by
    intro i hi
    rw [h.load_headerWord (by rw [length_secondPart]; omega), secondPart, headerWord_patchAt (second_room second _) (Or.inl hi)]
  obtain ⟨hsig, hid, hcheck, hversion⟩ := hl.header
  refine ⟨?_, (hword 8 (by decide)).trans hid, (hword 10 (by decide)).trans hcheck, (hword 12 (by decide)).trans hversion⟩
  have hsig' := h.slice 4 4
  rw [secondPart, slice_patchAt (by omega) (by decide), hsig] at hsig'
  exact hsig'.load_eq

/-- The map is read, and no second one. -/
theorem Delivers.loadmap_runs (hd : Delivers bios image) (hl : Layout bootsect second kernel image)
    (hmap : headerWord second 21 = 0) {s : Loader} (hm : Bytes s.mem secondSeg (secondPart second)) :
    ∃ m, loadmap bios s = { mem := m, reads := s.reads ++ [requestAt (1 + sectors second.length) 2] } ∧
      Bytes m (secondSeg + mapOff) (mapPart second kernel) := by
  have hsmall := hl.small
  have hlength := hl.length_image
  have hsectors : 0 < sectors second.length ∧ sectors second.length ≤ 17 := by unfold sectors; omega
  have hbuf : Buffer (secondSeg + mapOff) (512 * 2) := by
    unfold secondSeg mapOff
    refine ⟨by decide, by decide, Or.inr (by decide), by decide⟩
  have hfetch := fetch_sectorAt (hm.patched (second_room second _)) (by omega) (by decide)
  obtain ⟨m, hread, hbytes, helse⟩ :=
    hd.cread_requestAt (n := 1 + sectors second.length) (by omega) (by decide) (by omega) (by omega) hbuf s
  rw [hl.diskBytes_map] at hbytes
  have hnone : (fetch m (secondSeg + 21)).cx = 0 := by
    have hbyte : m.load (secondSeg + 21) 2 = s.mem.load (secondSeg + 21) 2 := by
      refine Mem.load_congr fun x hx hx' => helse x (Or.inl ?_) ?_
      all_goals unfold secondSeg at hx hx'
      · unfold secondSeg mapOff
        omega
      · unfold BiosArea
        omega
    have hload := hm.load_headerWord (i := 21) (by rw [length_secondPart]; omega)
    rw [secondPart, headerWord_patchAt (second_room second _) (Or.inr (by rw [length_bytes])),
      headerWord_readFile second (by omega), hmap] at hload
    exact hbyte.trans hload
  refine ⟨m, ?_, hbytes⟩
  rw [loadmap, hfetch, hread]
  dsimp only
  rw [cread, if_pos hnone]

/-- The load from the map: the reads, where they are told to go, and the map and its end still there. -/
theorem Delivers.lfile_kernel (hd : Delivers bios image) (hl : Layout bootsect second kernel image)
    (hfits : image.length ≤ 512 * 2880) {s : Loader} (hm : Bytes s.mem (secondSeg + mapOff) (mapPart second kernel)) :
    ∃ s', lfile bios 194 { toLoader := s, moff := 0, destLow := 0, destHigh := 0x10 } =
        .ok (s', 194 - ((kernelRuns second kernel).length + 1)) ∧
      s'.reads = s.reads ++ (kernelRuns second kernel).map (fun e => requestAt e.1 e.2) ∧
      s'.moff = 5 * (kernelRuns second kernel).length ∧ Bytes s'.mem 0x100000 (kernelPart kernel) ∧
      Bytes s'.mem (secondSeg + mapOff) (mapBytes (kernelRuns second kernel) ++ [0, 0, 0, 0]) := by
  have hlength := hl.length_image
  have hfloppy := hl.floppy
  have hruns := kernelRuns_length_le hl
  have hbytes := length_mapBytes (kernelRuns second kernel)
  have hmap : Bytes s.mem (secondSeg + mapOff) (mapBytes (kernelRuns second kernel) ++ [0, 0, 0, 0]) := by
    have hzeros : 1024 - (mapBytes (kernelRuns second kernel)).length =
        4 + (1020 - (mapBytes (kernelRuns second kernel)).length) := by omega
    rw [mapPart, hzeros, ← List.replicate_append_replicate, ← List.append_assoc, bytes_append] at hm
    exact hm.1
  have hin : InImage image (kernelRuns second kernel) := inImage_extents (by omega)
  have hsum : ((kernelRuns second kernel).map Prod.snd).sum = sectors kernel.length := sum_extents _ _ _
  have hdest : AtDest { toLoader := s, moff := 0, destLow := 0, destHigh := 0x10 } 0 := by
    refine ⟨?_, ?_, ?_⟩
    all_goals dsimp only
    all_goals omega
  obtain ⟨s', hrun, hreads, hmoff, hplaced, hkeep⟩ :=
    hd.lfile_runs hfits 194 hin hdest (by omega) (by omega) (by dsimp only; omega) hmap
  rw [kernelRuns, flatMap_diskBytes, hl.diskBytes_kernel] at hplaced
  refine ⟨s', hrun, hreads, hmoff.trans (Nat.zero_add _), hplaced, hmap.congr fun x hx hx' => hkeep x (Or.inl ?_)⟩
  rw [List.length_append] at hx'
  simp only [List.length_cons, List.length_nil] at hx'
  unfold secondSeg mapOff at hx hx'
  unfold secondSeg
  omega

/-- Every image that was built and fits a floppy is loaded, where the second record of `secaddr` and the second address of a map
are zero in the files, as the two sources assemble them. -/
theorem boot_loads_kernel (hbuild : build bootsect second kernel = some image) (hfits : image.length ≤ 512 * 2880)
    (htable : headerWord bootsect 21 = 0 ∧ headerWord bootsect 23 = 0) (hmap : headerWord second 21 = 0)
    (hd : Delivers bios image) {m : Mem} (hm : Bytes m firstSeg (image.take 512)) :
    ∃ s counter, Outcome.Comes (fun fuel => boot bios fuel m) (.ok (s, counter)) ∧ Loaded second kernel s counter := by
  have hl := layout_of_build hbuild hfits
  rw [hl.diskBytes_bsect] at hm
  obtain ⟨m₁, hsload, hfirst, hsecond⟩ := hd.sload_runs hl htable hm
  have hverified := verified_secondPart hl hsecond
  obtain ⟨m₂, hloadmap, hmapBytes⟩ :=
    hd.loadmap_runs hl hmap (s := { mem := m₁, reads := [requestAt 1 (sectors second.length)] }) hsecond
  obtain ⟨s, hrun, hreads, hmoff, hplaced, hmap'⟩ :=
    hd.lfile_kernel hl hfits
      (s := { mem := m₂, reads := [requestAt 1 (sectors second.length), requestAt (1 + sectors second.length) 2] }) hmapBytes
  have hsmall := hl.small
  have hlength := hl.length_image
  have hruns := kernelRuns_length_le hl
  have hsectors : 0 < sectors second.length ∧ sectors second.length ≤ 17 := by unfold sectors; omega
  have hin : InImage image (kernelRuns second kernel) := inImage_extents (by omega)
  rw [bytes_append, length_mapBytes, ← hmoff] at hmap'
  refine ⟨s, 194 - ((kernelRuns second kernel).length + 1), ⟨2, fun fuel hfuel => ?_⟩, ?_, ?_, ?_, ?_, ?_, ?_⟩
  · dsimp only [boot]
    rw [hsload fuel hfuel, Outcome.bind_ok, flags_bsectPart hfirst, if_neg Nat.zero_ne_one, secondStage, if_pos hverified,
      hloadmap]
    exact hrun
  · exact hplaced
  · have hthird : 1 + (sectors second.length + 2) = 3 + sectors second.length := by omega
    rw [hreads, List.flatMap_append, flatMap_sectors, kernelRuns, flatMap_extents, List.flatMap_cons, List.flatMap_singleton,
      sectors_requestAt, sectors_requestAt, List.range'_append_1, ← hthird, List.range'_append_1]
  · intro r hr
    rw [hreads, List.mem_append] at hr
    rcases hr with hr | hr
    · rw [List.mem_cons, List.mem_singleton] at hr
      rcases hr with rfl | rfl
      · exact requestAt_oneCylinder (by omega) (by omega) (by omega)
      · exact requestAt_oneCylinder (by omega) (by omega) (by omega)
    · exact hin.oneCylinder hfits r hr
  · refine ⟨_, hmoff, ?_⟩
    rw [hreads, map_fetch hfits hin hmap'.1]
    rfl
  · exact fetch_zero hmap'.2
  · omega

end

/-! ## A floppy -/

instance (r : Request) : Decidable r.OneCylinder :=
  decidable_of_iff
    (r.device = 0 ∧ r.track < 80 ∧ r.head < 2 ∧ (1 ≤ r.sector ∧ r.sector ≤ 18) ∧
      0 < r.al ∧ 18 * r.head + (r.sector - 1) + r.al ≤ 36)
    ⟨fun h => ⟨h.1, h.2.1, h.2.2.1, h.2.2.2.1, h.2.2.2.2⟩, fun h => ⟨h.device, h.track, h.head, h.sector, h.count⟩⟩

/-- A BIOS that reads the image from the floppy and nothing else. -/
def floppyBios (image : List UInt8) : Bios where
  read r a m :=
    if r.OneCylinder ∧ 512 * (r.first + r.al) ≤ image.length then
      { mem := m.put a (diskBytes image r.first r.al), carry := false, al := r.al }
    else { mem := m, carry := true, al := 0 }
  reset m := m
  move words src dest m := some (m.put dest ((List.range (2 * words)).map fun i => m.byte (src + i)))

theorem floppyBios_delivers (image : List UInt8) : Delivers (floppyBios image) image := by
  refine ⟨fun r a m hr hfit _ => ?_, fun words src dest m _ _ _ _ _ _ => ⟨_, rfl, fun i hi => ?_, fun x hx _ => ?_⟩⟩
  · dsimp only [floppyBios]
    rw [if_pos ⟨hr, hfit⟩]
    refine ⟨rfl, rfl, bytes_put, fun x hx _ => byte_put_of_outside ?_⟩
    rwa [length_diskBytes hfit]
  · refine bytes_put i _ ?_
    rw [List.getElem?_map, List.getElem?_range hi]
    rfl
  · refine byte_put_of_outside ?_
    rwa [List.length_map, List.length_range]

/-- Any other read is an error. -/
theorem floppyBios_error {r : Request} (h : ¬r.OneCylinder) (image : List UInt8) (a : Nat) (m : Mem) :
    (floppyBios image).read r a m = { mem := m, carry := true, al := 0 } := if_neg fun hr => h hr.1

/-- A first stage as it is assembled, up to the table. -/
def bootFile : List UInt8 := [0xfa, 0xfc, 0xeb, 0x42, 0x42, 0x4f, 0x4f, 0x54, 1, 0, 0x34, 0x12, 1, 0, 1, 0]

/-- A second stage, up to the address of the map. -/
def secondFile : List UInt8 := [0xeb, 0x18, 0x90, 0x90, 0x42, 0x4f, 0x4f, 0x54, 2, 0, 0x34, 0x12, 1, 0, 0, 0]

/-- The first bytes of a kernel. -/
def kernelFile : List UInt8 := [0x7f, 0x45, 0x4c, 0x46]

/-- A memory with the first sector where the first stage moves itself. -/
def started (image : List UInt8) : Mem := Mem.put { byte := fun _ => 0, dirty := fun _ => false } firstSeg (image.take 512)

/-- A kernel of 20000 bytes more. -/
def longKernel : List UInt8 := kernelFile ++ List.replicate 20000 0x90

/-- Its image. -/
def longImage : List UInt8 :=
  bsectPart bootFile secondFile ++ secondPart secondFile ++ mapPart secondFile longKernel ++ kernelPart longKernel

/-- It takes 40 sectors. -/
theorem sectors_longKernel : sectors longKernel.length = 40 := by
  rw [longKernel, List.length_append, List.length_replicate]
  rfl

/-- The first 32 of them are the rest of the first cylinder. -/
theorem kernelRuns_long : kernelRuns secondFile longKernel = [(4, 32), (36, 8)] := by
  have hsecond : sectors secondFile.length = 1 := rfl
  rw [kernelRuns, sectors_longKernel, hsecond, extents, extents, extents]
  rfl

theorem layout_long : Layout bootFile secondFile longKernel longImage :=
  ⟨by decide, by decide, by rw [sectors_longKernel]; decide, rfl⟩

/-- A kernel that goes on in the second cylinder is loaded. -/
theorem boot_loads_kernel_long :
    kernelRuns secondFile longKernel = [(4, 32), (36, 8)] ∧
      ∃ s counter, Outcome.Comes (fun fuel => boot (floppyBios longImage) fuel (started longImage)) (.ok (s, counter)) ∧
        Loaded secondFile longKernel s counter := by
  have haccepted : Accepted bootFile secondFile := ⟨by decide, by decide, by decide⟩
  have hbuild : build bootFile secondFile longKernel = some longImage := build_of_accepted haccepted layout_long.floppy
  have hsecond : sectors secondFile.length = 1 := rfl
  have hfits : longImage.length ≤ 512 * 2880 := by
    rw [layout_long.length_image, sectors_longKernel, hsecond]
    decide
  exact ⟨kernelRuns_long,
    boot_loads_kernel hbuild hfits ⟨by decide, by decide⟩ (by decide) (floppyBios_delivers _) bytes_put⟩

/-! ## A second record -/

/-- The same first stage with a second record, of a sector that no floppy has. -/
def strayFile : List UInt8 := bootFile ++ [0, 0, 0, 0, 0, 63, 0, 0, 0, 1]

/-- Its image. -/
def strayImage : List UInt8 :=
  bsectPart strayFile secondFile ++ secondPart secondFile ++ mapPart secondFile kernelFile ++ kernelPart kernelFile

theorem layout_stray : Layout strayFile secondFile kernelFile strayImage := ⟨by decide, by decide, by decide, rfl⟩

/-- The second record is an error, and the first stage starts over, for ever. -/
theorem sload_stray (fuel : Nat) :
    ∀ {m : Mem} {reads : List Request}, Bytes m firstSeg (bsectPart strayFile secondFile) →
      sload (floppyBios strayImage) fuel { mem := m, reads := reads } dAddr secondOff = .running := by
  induction fuel using Nat.strong_induction_on with
  | h fuel ih =>
    intro m reads hm
    obtain ⟨m', hrun, hfirst, -⟩ := (floppyBios_delivers strayImage).sload_first layout_stray hm
    rcases fuel with _ | _ | fuel
    · rfl
    · rw [hrun 0]
      rfl
    · have hcx : (fetch m' (firstSeg + 21)).cx = 63 := load_bsectPart hfirst (by decide) (by decide)
      have hbad : ¬(fetch m' (firstSeg + 21)).OneCylinder := by
        intro h
        have hsector := h.sector.2
        rw [Request.sector, hcx] at hsector
        exact absurd hsector (by decide)
      have hnot : ¬(fetch m' (firstSeg + 21)).cx ||| (fetch m' (firstSeg + 21)).dx = 0 := by
        intro h
        rw [(Nat.or_eq_zero_iff.1 h).1] at hcx
        cases hcx
      rw [hrun (fuel + 1), sload]
      dsimp only
      rw [if_neg hnot, floppyBios_error hbad, if_pos rfl]
      exact ih fuel (by omega) hfirst

/-- The files are accepted, and the load never ends. -/
theorem boot_loads_kernel_false :
    build strayFile secondFile kernelFile = some strayImage ∧ strayImage.length ≤ 512 * 2880 ∧
      Delivers (floppyBios strayImage) strayImage ∧ Bytes (started strayImage) firstSeg (strayImage.take 512) ∧
      (∀ fuel, boot (floppyBios strayImage) fuel (started strayImage) = .running) ∧
      ¬∀ (bootsect second kernel image : List UInt8) (bios : Bios) (m : Mem), build bootsect second kernel = some image →
        image.length ≤ 512 * 2880 → Delivers bios image → Bytes m firstSeg (image.take 512) →
        ∃ s counter, Outcome.Comes (fun fuel => boot bios fuel m) (.ok (s, counter)) ∧ Loaded second kernel s counter := by
  have haccepted : Accepted strayFile secondFile := ⟨by decide, by decide, by decide⟩
  have hbuild : build strayFile secondFile kernelFile = some strayImage := build_of_accepted haccepted (by decide)
  have hfits : strayImage.length ≤ 512 * 2880 := by
    rw [layout_stray.length_image]
    decide
  have hm : Bytes (started strayImage) firstSeg (strayImage.take 512) := bytes_put
  have hrunning : ∀ fuel, boot (floppyBios strayImage) fuel (started strayImage) = .running := by
    intro fuel
    rw [layout_stray.diskBytes_bsect] at hm
    rw [boot, sload_stray fuel hm]
    rfl
  refine ⟨hbuild, hfits, floppyBios_delivers _, hm, hrunning, fun hall => ?_⟩
  obtain ⟨s, counter, ⟨n, hn⟩, -⟩ :=
    hall strayFile secondFile kernelFile strayImage (floppyBios strayImage) (started strayImage) hbuild hfits
      (floppyBios_delivers _) hm
  have hok := hn n (Nat.le_refl n)
  dsimp only at hok
  rw [hrunning n] at hok
  cases hok

end BootPerl
