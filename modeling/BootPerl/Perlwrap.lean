import BootPerl.Console
import BootPerl.Memory

/-!
# The C library (`kernel/perlwrap.c`)

`calloc` and `realloc` over `kalloc` and `kfree`, and the comparisons, searches and copies of strings. `realloc` does not ask for the old
size: the copy reads as many bytes as the new block has.
-/

namespace BootPerl

open Outcome

/-- `memset` of `n` bytes (`init/main.c`). The index is an `int`, compared as a `size_t`: from `2 ^ 31` on it is negative, and the
address that it leads to is the same. -/
def memset (m : Mem) (s : Nat) (c : Int) : Nat → Mem
  | 0 => m
  | n + 1 => memset (m.set s (uchar c)) ((s + 1) % 4294967296) c n

/-- Memory for `nmemb` objects of `size` bytes. The product is that of two `size_t`. -/
def calloc (fuel : Nat) (v : HeapVars) (m : Mem) (nmemb size : Nat) : Outcome (Mem × Nat) :=
  (kalloc fuel v m (nmemb * size % 4294967296)).bind fun (m, mem) =>
    .ok (memset m mem 0 (nmemb * size % 4294967296), mem)

/-- A block of `size` bytes with what lies at `ptr`, which is freed; no block is asked for when `size` is zero. -/
def realloc (fuel : Nat) (v : HeapVars) (m : Mem) (ptr size : Nat) : Outcome (Mem × Nat) :=
  (if size ≠ 0 then kalloc fuel v m size else .ok (m, 0)).bind fun (m, newmem) =>
    if size ≠ 0 ∧ newmem = 0 then .ok (m, 0)
    else
      let m := if ptr ≠ 0 ∧ size ≠ 0 then memcpy m newmem ptr size else m
      (if ptr ≠ 0 then kfree fuel v m ptr else .ok m).bind fun m => .ok (m, newmem)

/-! ## Strings -/

/-- `strcmp`. The body of its loop leaves both pointers where they are. -/
def strcmp : Nat → Mem → Nat → Nat → Outcome Int
  | 0, _, _, _ => .running
  | fuel + 1, m, s1, s2 =>
    if signedChar (m.byte s1) ≠ 0 ∧ signedChar (m.byte s2) ≠ 0 then
      if signedChar (m.byte s1) < signedChar (m.byte s2) then .ok (-1)
      else if signedChar (m.byte s1) > signedChar (m.byte s2) then .ok 1
      else strcmp fuel m s1 s2
    else if signedChar (m.byte s1) < signedChar (m.byte s2) then .ok (-1)
    else if signedChar (m.byte s1) > signedChar (m.byte s2) then .ok 1
    else .ok 0

/-- The loop of `strncmp` from index `i` on, with as many turns left. -/
def strncmpFrom (m : Mem) (s1 s2 : Nat) : Nat → Nat → Int
  | 0, _ => 0
  | left + 1, i =>
    if signedChar (m.byte (s1 + i)) < signedChar (m.byte (s2 + i)) then -1
    else if signedChar (m.byte (s1 + i)) > signedChar (m.byte (s2 + i)) then 1
    else if signedChar (m.byte (s1 + i)) = 0 ∨ signedChar (m.byte (s2 + i)) = 0 then 0
    else strncmpFrom m s1 s2 left (i + 1)

/-- `strncmp`. -/
def strncmp (m : Mem) (s1 s2 n : Nat) : Int := strncmpFrom m s1 s2 n 0

/-! ## Searches -/

/-- The loop of `memchr` from index `i` on, with as many turns left; null is none. As in `memset`, from `2 ^ 31` on the index leads to
the same address. -/
def memchrFrom (m : Mem) (s : Nat) (c : Int) : Nat → Nat → Option Nat
  | 0, _ => none
  | left + 1, i =>
    if signedChar (m.byte ((s + i) % 4294967296)) = c then some ((s + i) % 4294967296) else memchrFrom m s c left (i + 1)

/-- `memchr`. -/
def memchr (m : Mem) (s : Nat) (c : Int) (n : Nat) : Option Nat := memchrFrom m s c n 0

/-- `strchr`; null is none. -/
def strchr : Nat → Mem → Nat → Int → Outcome (Option Nat)
  | 0, _, _, _ => .running
  | fuel + 1, m, s, c =>
    if signedChar (m.byte s) ≠ 0 then if signedChar (m.byte s) = c then .ok (some s) else strchr fuel m (s + 1) c
    else .ok none

/-- The loop of `strrchr`, with the match found so far. -/
def strrchrFrom : Nat → Mem → Nat → Int → Option Nat → Outcome (Option Nat)
  | 0, _, _, _, _ => .running
  | fuel + 1, m, s, c, matched =>
    if signedChar (m.byte s) ≠ 0 then strrchrFrom fuel m (s + 1) c (if signedChar (m.byte s) = c then some s else matched)
    else .ok matched

/-- `strrchr`; null is none. -/
def strrchr (fuel : Nat) (m : Mem) (s : Nat) (c : Int) : Outcome (Option Nat) := strrchrFrom fuel m s c none

/-! ## Copies -/

/-- The loop of `strcpy`, and the second one of `strcat`, with the NUL that is written after it. -/
def copyString : Nat → Mem → Nat → Nat → Outcome Mem
  | 0, _, _, _ => .running
  | fuel + 1, m, dest, src =>
    if m.byte src ≠ 0 then copyString fuel (m.set dest (m.byte src)) ((dest + 1) % 4294967296) ((src + 1) % 4294967296)
    else .ok (m.set dest 0)

/-- `strcpy`. -/
def strcpy (fuel : Nat) (m : Mem) (dest src : Nat) : Outcome (Mem × Nat) :=
  (copyString fuel m dest src).bind fun m => .ok (m, dest)

/-- The first loop of `strcat`. -/
def stringEnd : Nat → Mem → Nat → Outcome Nat
  | 0, _, _ => .running
  | fuel + 1, m, dest => if m.byte dest ≠ 0 then stringEnd fuel m ((dest + 1) % 4294967296) else .ok dest

/-- `strcat`. -/
def strcat (fuel : Nat) (m : Mem) (dest src : Nat) : Outcome (Mem × Nat) :=
  (stringEnd fuel m dest).bind fun start => (copyString fuel m start src).bind fun m => .ok (m, dest)

end BootPerl
