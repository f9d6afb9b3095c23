import BootPerl.Build
import BootPerl.Lib.Extents

/-!
# What the builder writes

The address of a sector as a number, the map as a list of runs, and the parts of the image.
-/

namespace BootPerl

/-! ## Addresses -/

/-- The address of sector `n` of the disk, with a count. -/
def sectorAt (n numSect : Nat) : SectAddr :=
  { sector := n % 18 + 1, track := n / 36, device := 0, head := n / 18 % 2, numSect := numSect }

/-- `inc_sector` counts sectors. -/
theorem incSector_sectorAt {n c : Nat} (q : Nat) (hn : n + c ≤ 2880) (hc : c ≤ 36) :
    incSector (sectorAt n q) c = sectorAt (n + c) q := by
  have hcarry : (n + c) / 18 = n / 18 + (n % 18 + c) / 18 := by omega
  have hrest : (n + c) % 18 = (n % 18 + c) % 18 := by omega
  have hsum : (n % 18 + 1 + c) % 256 = n % 18 + c + 1 := by omega
  have hspt : spt = 18 := rfl
  unfold incSector
  dsimp only [sectorAt]
  rw [hsum]
  by_cases hover : spt < n % 18 + c + 1
  · rw [if_pos hover, SectAddr.mk.injEq]
    dsimp only [spt, heads]
    refine ⟨by omega, by omega, rfl, by omega, rfl⟩
  · rw [if_neg hover, SectAddr.mk.injEq]
    refine ⟨by omega, by omega, rfl, by omega, rfl⟩

theorem length_bytes (addr : SectAddr) : addr.bytes.length = 5 := rfl

/-! ## The map -/

/-- The records of a list of runs. -/
def mapBytes (es : List (Nat × Nat)) : List UInt8 := es.flatMap fun e => (sectorAt e.1 e.2).bytes

theorem mapBytes_cons (n c : Nat) (es : List (Nat × Nat)) : mapBytes ((n, c) :: es) = (sectorAt n c).bytes ++ mapBytes es := rfl

theorem length_mapBytes (es : List (Nat × Nat)) : (mapBytes es).length = 5 * es.length := by
  induction es with
  | nil => rfl
  | cons e es ih =>
    obtain ⟨n, c⟩ := e
    rw [mapBytes_cons, List.length_append, ih, length_bytes, List.length_cons]
    omega

/-- A cylinder has sectors. -/
instance neZeroCylinder : NeZero 36 := ⟨by decide⟩

/-- `remaining` is what is left of the cylinder. -/
theorem remaining_sectorAt (n q : Nat) :
    heads * spt - (spt * (sectorAt n q).head + (sectorAt n q).sector) + 1 = 36 - n % 36 := by
  change 2 * 18 - (18 * (n / 18 % 2) + (n % 18 + 1)) + 1 = 36 - n % 36
  omega

/-- The loop depends on the number of sectors left. -/
theorem patchMap_left {total i total' i' j : Nat} {next : SectAddr} {map : List UInt8} (h : total - i = total' - i') :
    patchMap total i j next map = patchMap total' i' j next map := by
  induction hk : total - i using Nat.strong_induction_on generalizing i i' j next map with
  | _ k ih =>
    rw [patchMap.eq_def total i, patchMap.eq_def total' i']
    by_cases hlt : i < total
    · have hchunks : chunks = 36 := rfl
      rw [if_pos hlt, if_pos (by omega)]
      dsimp only
      rw [h]
      exact ih _ (by split <;> omega) (by omega) rfl
    · rw [if_neg hlt, if_neg (by omega)]

/-- One pass of the loop: up to the end of the cylinder. -/
theorem patchMap_step {total i j n z : Nat} (q : Nat) {pre : List UInt8} (hlt : i < total) (hpre : pre.length = 5 * j) :
    patchMap total i j (sectorAt n q) (pre ++ List.replicate z 0) =
      patchMap total (i + (36 - n % 36)) (j + 1) (incSector (sectorAt n q) (min (total - i) (36 - n % 36)))
        (pre ++ (sectorAt n (min (total - i) (36 - n % 36))).bytes ++ List.replicate (z - 5) 0) := by
  have hcount : (if heads * spt - (spt * (sectorAt n q).head + (sectorAt n q).sector) + 1 < chunks then
      heads * spt - (spt * (sectorAt n q).head + (sectorAt n q).sector) + 1 else chunks) = 36 - n % 36 := by
    have hchunks : chunks = 36 := rfl
    rw [remaining_sectorAt]
    split <;> omega
  rw [patchMap, if_pos hlt]
  dsimp only
  rw [hcount, ← hpre, patchAt_append_replicate]
  rfl

/-- The `k` sectors from `n` on are entered in the map, cut at the ends of the cylinders, when they are all that is left or end a
cylinder. -/
theorem patchMap_run {n k : Nat} (q : Nat) (hn : n + k ≤ 2880) :
    ∀ (pre : List UInt8) {total i j z : Nat}, k ≤ total - i → total - i = k ∨ (n + k) % 36 = 0 → pre.length = 5 * j →
      patchMap total i j (sectorAt n q) (pre ++ List.replicate z 0) =
        patchMap (total - i - k) 0 (j + (extents 36 n k).length) (sectorAt (n + k) q)
          (pre ++ mapBytes (extents 36 n k) ++ List.replicate (z - (mapBytes (extents 36 n k)).length) 0) := by
  induction n, k using extents.induct 36 with
  | case1 n =>
    intro pre total i j z _ _ _
    rw [extents_zero, mapBytes, List.flatMap_nil, List.append_nil, List.length_nil, Nat.sub_zero]
    exact patchMap_left (by omega)
  | case2 n k hk0 ih =>
    intro pre total i j z hk hend hpre
    have hmin : min (total - i) (36 - n % 36) = min k (36 - n % 36) := by omega
    have hinc := incSector_sectorAt (n := n) (c := min k (36 - n % 36)) q (by omega) (by omega)
    rw [patchMap_step q (by omega) hpre, hmin, hinc]
    have hnext := ih (by omega) (pre ++ (sectorAt n (min k (36 - n % 36))).bytes) (i := i + (36 - n % 36))
      (j := j + 1) (z := z - 5) (show k - min k (36 - n % 36) ≤ total - (i + (36 - n % 36)) by omega) (by omega)
      (by rw [List.length_append, length_bytes, hpre]; omega)
    have hleft : total - (i + (36 - n % 36)) - (k - min k (36 - n % 36)) = total - i - k := by omega
    have hlast : n + min k (36 - n % 36) + (k - min k (36 - n % 36)) = n + k := by omega
    rw [hleft, hlast] at hnext
    rw [extents_cons (by omega), mapBytes_cons, List.length_append, List.length_cons, length_bytes, ← Nat.sub_sub,
      show j + ((extents 36 (n + min k (36 - n % 36)) (k - min k (36 - n % 36))).length + 1) =
        j + 1 + (extents 36 (n + min k (36 - n % 36)) (k - min k (36 - n % 36))).length by omega]
    rw [List.append_assoc pre] at hnext
    simp only [List.append_assoc] at hnext ⊢
    exact hnext

/-- The map is the kernel's run of sectors, cut at the ends of the cylinders. -/
theorem patchMap_eq {n k : Nat} (total q : Nat) (hn : n + k ≤ 2880) (pre : List UInt8) {i j z : Nat} (hk : total - i = k)
    (hpre : pre.length = 5 * j) :
    patchMap total i j (sectorAt n q) (pre ++ List.replicate z 0) =
      pre ++ mapBytes (extents 36 n k) ++ List.replicate (z - (mapBytes (extents 36 n k)).length) 0 := by
  rw [patchMap_run q hn pre (Nat.le_of_eq hk.symm) (Or.inl hk) hpre, hk, Nat.sub_self, patchMap, if_neg (Nat.lt_irrefl 0)]

/-- However large the kernel, the map does not shrink. -/
theorem le_length_patchMap (total i j : Nat) (next : SectAddr) (map : List UInt8) :
    map.length ≤ (patchMap total i j next map).length := by
  induction i, j, next, map using patchMap.induct total with
  | case1 i j next map hlt _ _ _ ih =>
    rw [patchMap, if_pos hlt]
    exact (le_length_patchAt map _ _).trans ih
  | case2 i j next map hge =>
    rw [patchMap, if_neg hge]

/-! ## Files -/

theorem length_readFile (n : Nat) (file : List UInt8) : (readFile n file).length = n := by
  rw [readFile, List.length_append, List.length_take, List.length_replicate]
  omega

/-- The zeros of a buffer are no different from the bytes that a file lacks. -/
theorem getD_readFile {n i : Nat} (file : List UInt8) (hi : i < n) : (readFile n file).getD i 0 = file.getD i 0 := by
  rw [List.getD_eq_getElem?_getD, List.getD_eq_getElem?_getD, readFile]
  rcases Nat.lt_or_ge i file.length with hlt | hge
  · rw [List.getElem?_append_left (by rw [List.length_take]; omega), List.getElem?_take_of_lt hi]
  · have hlen : (file.take n).length ≤ i := by rw [List.length_take]; omega
    rw [List.getElem?_append_right hlen, List.getElem?_eq_none hge, List.getElem?_replicate]
    split <;> rfl

theorem headerWord_readFile {n i : Nat} (file : List UInt8) (hi : i + 1 < n) :
    headerWord (readFile n file) i = headerWord file i := by
  rw [headerWord, headerWord, getD_readFile file (by omega), getD_readFile file hi]

theorem getD_patchAt {buf bs : List UInt8} {off i : Nat} (h : off + bs.length ≤ buf.length)
    (hi : i < off ∨ off + bs.length ≤ i) : (patchAt buf off bs).getD i 0 = buf.getD i 0 := by
  rw [List.getD_eq_getElem?_getD, List.getD_eq_getElem?_getD, patchAt_outside h hi]

/-- A word beside the patch. -/
theorem headerWord_patchAt {buf bs : List UInt8} {off i : Nat} (h : off + bs.length ≤ buf.length)
    (hi : i + 1 < off ∨ off + bs.length ≤ i) : headerWord (patchAt buf off bs) i = headerWord buf i := by
  rw [headerWord, headerWord, getD_patchAt h (by omega), getD_patchAt h (by omega)]

/-! ## The parts of the image -/

section
variable (bootsect second kernel : List UInt8)

/-- The first sector: the halt flag clear, and the second stage in the table. -/
def bsectPart : List UInt8 := patchAt (clearHalt (readFile 512 bootsect)) 16 (sectorAt 1 (sectors second.length)).bytes

/-- The second stage, with the address of the map. -/
def secondPart : List UInt8 :=
  patchAt (readFile (sectors second.length * 512) second) 16 (sectorAt (1 + sectors second.length) 2).bytes

/-- The kernel's sectors, cut at the ends of the cylinders. -/
def kernelRuns : List (Nat × Nat) := extents 36 (3 + sectors second.length) (sectors kernel.length)

/-- The map: the records of the kernel's runs, and zeros. -/
def mapPart : List UInt8 :=
  mapBytes (kernelRuns second kernel) ++ List.replicate (1024 - (mapBytes (kernelRuns second kernel)).length) 0

/-- The kernel in whole sectors. -/
def kernelPart : List UInt8 := readFile (sectors kernel.length * 512) kernel

/-- An image that was built and fits a floppy, part by part. -/
structure Layout (image : List UInt8) : Prop where
  small : second.length ≤ 8192
  header : IsHeader (readFile (sectors second.length * 512) second) 2
  floppy : 3 + sectors second.length + sectors kernel.length ≤ 2880
  image_eq : image = bsectPart bootsect second ++ secondPart second ++ mapPart second kernel ++ kernelPart kernel

end

section
variable {bootsect second kernel image : List UInt8}

/-- A second stage of up to 8K takes at most 17 sectors. -/
theorem sectors_second (h : second.length ≤ 8192) : 0 < sectors second.length ∧ sectors second.length ≤ 17 := by
  unfold sectors
  omega

/-- The flag lies in the first sector. -/
theorem flag_room (bootsect : List UInt8) (flag : UInt8) : 14 + [flag].length ≤ (readFile 512 bootsect).length := by
  rw [length_readFile]
  exact Nat.le_add_left 15 497

theorem length_clearHalt_readFile (bootsect : List UInt8) : (clearHalt (readFile 512 bootsect)).length = 512 :=
  (length_patchAt (flag_room bootsect _)).trans (length_readFile 512 bootsect)

/-- The first record lies in the first sector. -/
theorem bsect_room (bootsect : List UInt8) (addr : SectAddr) : 16 + addr.bytes.length ≤ (clearHalt (readFile 512 bootsect)).length := by
  rw [length_clearHalt_readFile, length_bytes]
  decide

/-- The address of the map lies in the second stage. -/
theorem second_room (second : List UInt8) (addr : SectAddr) :
    16 + addr.bytes.length ≤ (readFile (sectors second.length * 512) second).length := by
  have hsectors : 0 < sectors second.length := Nat.succ_pos _
  rw [length_readFile, length_bytes]
  omega

theorem length_bsectPart (bootsect second : List UInt8) : (bsectPart bootsect second).length = 512 :=
  (length_patchAt (bsect_room bootsect _)).trans (length_clearHalt_readFile bootsect)

theorem length_secondPart (second : List UInt8) : (secondPart second).length = sectors second.length * 512 :=
  (length_patchAt (second_room second _)).trans (length_readFile _ _)

theorem length_kernelPart (kernel : List UInt8) : (kernelPart kernel).length = sectors kernel.length * 512 :=
  length_readFile _ _

/-- The second stage is entered in one record. -/
theorem patchBsect_eq {total : Nat} (bsect : List UInt8) (h0 : 0 < total) (h36 : total ≤ 36) :
    patchBsect total 0 0 (sectorAt 1 0) bsect = (sectorAt (1 + total) 0, patchAt bsect 16 (sectorAt 1 total).bytes) := by
  have hmin : min (total - 0) chunks = total := Nat.min_eq_left h36
  have hinc := incSector_sectorAt (n := 1) 0 (by omega) h36
  rw [patchBsect, if_pos h0]
  dsimp only
  rw [hmin, hinc, patchBsect, if_neg (by rw [chunks]; omega)]
  rfl

/-- A kernel that fits a floppy touches at most 81 cylinders, and its map has room for as many records and the end marker. -/
theorem length_kernelRuns (hfloppy : 3 + sectors second.length + sectors kernel.length ≤ 2880) :
    (kernelRuns second kernel).length ≤ 81 ∧ (mapPart second kernel).length = 1024 := by
  have hlen := length_extents_le 36 (3 + sectors second.length) (sectors kernel.length)
  have hruns : (kernelRuns second kernel).length ≤ 81 := by
    unfold kernelRuns
    omega
  refine ⟨hruns, ?_⟩
  rw [mapPart, List.length_append, List.length_replicate, length_mapBytes]
  omega

theorem patchMap_kernel (hfloppy : 3 + sectors second.length + sectors kernel.length ≤ 2880) :
    (patchMap (sectors kernel.length) 0 0 (sectorAt (3 + sectors second.length) 0) (List.replicate 1024 0)).take 1024 =
      mapPart second kernel := by
  have hmap := patchMap_eq (n := 3 + sectors second.length) (sectors kernel.length) 0 hfloppy [] (i := 0) (j := 0) (z := 1024)
    (Nat.sub_zero _) rfl
  exact (congrArg (List.take 1024) hmap).trans (List.take_of_length_le (Nat.le_of_eq (length_kernelRuns hfloppy).2))

/-- What `build` checks in the files it accepts. -/
structure Accepted (bootsect second : List UInt8) : Prop where
  first : IsHeader (readFile 512 bootsect) 1
  small : second.length ≤ 8192
  header : IsHeader (readFile (sectors second.length * 512) second) 2

theorem accepted_of_build (h : build bootsect second kernel = some image) : Accepted bootsect second := by
  unfold build at h
  extract_lets bsect bsect' secondsize second' mapsize map kernelsize kernel' next patched src addr second'' map' at h
  split at h
  · cases h
  rename_i hfirst
  split at h
  · cases h
  rename_i hsmall
  split at h
  · cases h
  rename_i hheader
  exact ⟨not_not.1 hfirst, by omega, not_not.1 hheader⟩

/-- The image of accepted files, whatever the size of the kernel. -/
theorem build_eq (h : Accepted bootsect second) (kernel : List UInt8) :
    build bootsect second kernel =
      some (bsectPart bootsect second ++ secondPart second ++
        (patchMap (sectors kernel.length) 0 0 (sectorAt (3 + sectors second.length) 0) (List.replicate 1024 0)).take 1024 ++
        kernelPart kernel) := by
  have hsmall := h.small
  have hsectors := sectors_second hsmall
  have hsum : 1 + sectors second.length + 2 = 3 + sectors second.length := by omega
  have hinc := incSector_sectorAt (n := 1 + sectors second.length) (c := 2) 0 (by omega) (by omega)
  have hpatched := patchBsect_eq (clearHalt (readFile 512 bootsect)) hsectors.1 (by omega)
  have hsecondsize : sectors second.length * 512 / 512 = sectors second.length := Nat.mul_div_cancel _ (by decide)
  have hkernelsize : sectors kernel.length * 512 / 512 = sectors kernel.length := Nat.mul_div_cancel _ (by decide)
  rw [hsum] at hinc
  rw [build]
  dsimp only
  rw [if_neg (not_not.2 h.first), if_neg (by omega), if_neg (not_not.2 h.header), hsecondsize, hkernelsize]
  have hnext : ({ sector := 2, track := 0, device := 0, head := 0, numSect := 0 } : SectAddr) = sectorAt 1 0 := rfl
  have hcount : 1024 / 512 = 2 := rfl
  rw [hnext, hpatched, hcount]
  dsimp only
  rw [hinc]
  rfl

/-- Every image that `build` writes and that fits has the layout. -/
theorem layout_of_build (h : build bootsect second kernel = some image) (hfits : image.length ≤ 512 * 2880) :
    Layout bootsect second kernel image := by
  have haccepted := accepted_of_build h
  rw [build_eq haccepted, Option.some_inj] at h
  have hfloppy : 3 + sectors second.length + sectors kernel.length ≤ 2880 := by
    have hmap := le_length_patchMap (sectors kernel.length) 0 0 (sectorAt (3 + sectors second.length) 0) (List.replicate 1024 0)
    rw [List.length_replicate] at hmap
    rw [← h] at hfits
    simp only [List.length_append, length_bsectPart, length_secondPart, length_kernelPart, List.length_take_of_le hmap] at hfits
    omega
  refine ⟨haccepted.small, haccepted.header, hfloppy, ?_⟩
  rw [← h, patchMap_kernel hfloppy]

/-- The files that are accepted and fit have an image. -/
theorem build_of_accepted (h : Accepted bootsect second) (hfloppy : 3 + sectors second.length + sectors kernel.length ≤ 2880) :
    build bootsect second kernel =
      some (bsectPart bootsect second ++ secondPart second ++ mapPart second kernel ++ kernelPart kernel) := by
  rw [build_eq h, patchMap_kernel hfloppy]

end

end BootPerl
