import Coter.Core.Machine

/-!
# Copying in reverse

`ct_reverse_memcpy` and `ct_reverse_memmove` of `coter/core/strings.h`, on one memory. A
pointer is an offset, or `none` for `NULL`; both functions return `dest`.
-/

namespace Coter.Strings

open Lib.Blocks

variable {β : Type}

/-- `dst_ptr[..] = src_ptr[..]` -/
def copy (m : List β) (dst src : Nat) : Except Fault (List β) := do
  let byte ← load m src 1
  store m dst byte

/-- The loop of `ct_reverse_memcpy` over the bytes that do not form a word. -/
def remain_loop (dst src count : Nat) : Nat → Nat → List β → Except Fault (List β)
  | 0, _, m => .ok m
  | left + 1, i, m => do
    let m ← copy m (dst + i) (src + (count - 1 - i))
    remain_loop dst src count left (i + 1) m

/-- `*dst_ptr++ = *--src_ptr`, on the memory and both pointers. -/
def copy_step : List β × Nat × Nat → Except Fault (List β × Nat × Nat)
  | (_, _, 0) => .error .bounds
  | (m, dst, src + 1) => do
    let m ← copy m dst src
    return (m, dst + 1, src)

/-- The loop of `ct_reverse_memcpy` over the words. -/
def word_loop : Nat → List β × Nat × Nat → Except Fault (List β × Nat × Nat)
  | 0, s => .ok s
  | multiple + 1, s => do
    let s ← copy_step s
    let s ← copy_step s
    let s ← copy_step s
    let s ← copy_step s
    let s ← copy_step s
    let s ← copy_step s
    let s ← copy_step s
    let s ← copy_step s
    word_loop multiple s

/-- `ct_reverse_memcpy`. -/
def reverse_memcpy (m : List β) (dest src : Option Nat) (count : Nat) : Except Fault (List β) :=
  match dest, src with
  | some dest, some src =>
    if count = 0 ∨ dest = src then .ok m
    else do
      let multiple := if count < 8 then 0 else count / 8
      let remain := if count < 8 then count else count % 8
      let m ← if remain > 0 then remain_loop dest src count remain 0 m else .ok m
      if multiple > 0 then
        let count := count - remain
        let (m, _, _) ← word_loop multiple (m, dest + remain, src + count)
        return m
      else return m
  | _, _ => .ok m

/-- The loop of `ct_reverse_memmove`. -/
def swap_loop (dst count : Nat) : Nat → Nat → List β → Except Fault (List β)
  | 0, _, m => .ok m
  | left + 1, i, m => do
    let val ← load m (dst + i) 1
    let byte ← load m (dst + (count - 1 - i)) 1
    let m ← store m (dst + i) byte
    let m ← store m (dst + (count - 1 - i)) val
    swap_loop dst count left (i + 1) m

/-- The end of `ct_reverse_memmove`. -/
def reverse_in_place (m : List β) (dst count : Nat) : Except Fault (List β) :=
  let half := count / 2
  swap_loop dst count half 0 m

/-- `ct_reverse_memmove`. -/
def reverse_memmove (m : List β) (dest src : Option Nat) (count : Nat) : Except Fault (List β) :=
  match dest, src with
  | some dest, some src =>
    if count = 0 then .ok m
    else if dest < src then
      if dest + count > src then do
        let len := src - dest
        let m ← reverse_memcpy m (some dest) (some (dest + count)) len
        reverse_in_place m (dest + len) (count - len)
      else reverse_memcpy m (some dest) (some src) count
    else if dest > src then
      if dest < src + count then do
        let len := dest - src
        let count := count - len
        let m ← reverse_memcpy m (some (dest + count)) (some src) len
        reverse_in_place m dest count
      else reverse_memcpy m (some dest) (some src) count
    else reverse_in_place m dest count
  | _, _ => .ok m

end Coter.Strings
