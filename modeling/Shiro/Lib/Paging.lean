import Mathlib.Data.Nat.Bitwise
import Shiro.Lib.Memory

/-!
# Paging on IA-32

Two-level translation with pages of 4 KiB and, where CR4.PSE is set, of 4 MiB: the directory that CR3
points to, the rights of an entry, and the page fault that an access can raise.  The extensions for
larger addresses and for execution rights are left out.

* `Control` : the control registers.
* `translate` : **the physical address** of an access, or the page fault.
* `movCr0` : a write to CR0, and the fault that it raises when it turns paging on or leaves it on
  without protection.
* `translate_large` : **an access through a large page.**
-/

namespace Shiro

namespace Ia32

/-- The control registers. -/
structure Control where
  cr0 : ℕ
  cr3 : ℕ
  cr4 : ℕ
  deriving DecidableEq

namespace Control

/-- CR0.PE. -/
def protect (c : Control) : Bool := c.cr0.testBit 0

/-- CR0.WP. -/
def writeProtect (c : Control) : Bool := c.cr0.testBit 16

/-- CR0.PG. -/
def paging (c : Control) : Bool := c.cr0.testBit 31

/-- CR4.PSE. -/
def largePages (c : Control) : Bool := c.cr4.testBit 4

end Control

/-- An access, as the paging unit sees it. -/
structure PageAccess where
  write : Bool
  user : Bool
  deriving DecidableEq

/-- A page fault, with the bits of its error code. -/
structure PageFault where
  /-- P: the page is there, but not for this access. -/
  present : Bool
  write : Bool
  user : Bool
  reserved : Bool
  deriving DecidableEq

/-- The error code of a page fault. -/
def PageFault.code (f : PageFault) : ℕ :=
  f.present.toNat + 2 * f.write.toNat + 4 * f.user.toNat + 8 * f.reserved.toNat

/-- The fault of an access. -/
def PageAccess.fault (x : PageAccess) (present reserved : Bool) : PageFault :=
  ⟨present, x.write, x.user, reserved⟩

/-- An access is allowed by entries with these rights. -/
def permits (c : Control) (writable user : Bool) (x : PageAccess) : Bool :=
  if x.user then user && (!x.write || writable)
  else !x.write || writable || !c.writeProtect

/-- The entry of the directory for a linear address. -/
def directoryEntry (m : Mem) (c : Control) (a : ℕ) : ℕ :=
  m.read32 (c.cr3 / 2 ^ 12 * 2 ^ 12 + 4 * (a / 2 ^ 22))

/-- **The physical address** of an access to the linear address `a`. -/
def translate (m : Mem) (c : Control) (x : PageAccess) (a : ℕ) : Except PageFault ℕ :=
  if !c.paging then .ok a
  else
    let pde := directoryEntry m c a
    if !pde.testBit 0 then .error (x.fault false false)
    else if pde.testBit 7 && c.largePages then
      if pde.testBit 21 then .error (x.fault true true)
      else if permits c (pde.testBit 1) (pde.testBit 2) x then
        -- bits 13 to 20 continue the address beyond 32 bits
        .ok (pde / 2 ^ 13 % 2 ^ 8 * 2 ^ 32 + pde / 2 ^ 22 * 2 ^ 22 + a % 2 ^ 22)
      else .error (x.fault true false)
    else
      let pte := m.read32 (pde / 2 ^ 12 * 2 ^ 12 + 4 * (a / 2 ^ 12 % 2 ^ 10))
      if !pte.testBit 0 then .error (x.fault false false)
      else if permits c (pde.testBit 1 && pte.testBit 1) (pde.testBit 2 && pte.testBit 2) x then
        .ok (pte / 2 ^ 12 * 2 ^ 12 + a % 2 ^ 12)
      else .error (x.fault true false)

/-- A write to CR0: paging without protection is a general protection fault. -/
def movCr0 (c : Control) (v : ℕ) : Option Control :=
  if v.testBit 31 && !v.testBit 0 then none else some { c with cr0 := v }

variable {m m' : Mem} {c : Control} {x : PageAccess} {a : ℕ}

theorem movCr0_of_protect {v : ℕ} (h : v.testBit 0 = true) :
    movCr0 c v = some { c with cr0 := v } := by
  simp [movCr0, h]

theorem translate_of_off (h : c.paging = false) (m : Mem) (x : PageAccess) (a : ℕ) :
    translate m c x a = .ok a := by
  rw [translate, h]
  rfl

/-- A directory entry for a large page below 4 GiB. -/
structure LargeEntry (pde frame : ℕ) (writable user : Bool) : Prop where
  present : pde.testBit 0 = true
  large : pde.testBit 7 = true
  writable : pde.testBit 1 = writable
  user : pde.testBit 2 = user
  reserved : pde.testBit 21 = false
  high : pde / 2 ^ 13 % 2 ^ 8 = 0
  frame : pde / 2 ^ 22 = frame

/-- **An access through a large page.** -/
theorem translate_large {frame : ℕ} {writable user : Bool} (hon : c.paging = true)
    (hpse : c.largePages = true) (h : LargeEntry (directoryEntry m c a) frame writable user) :
    translate m c x a =
      if permits c writable user x then .ok (frame * 2 ^ 22 + a % 2 ^ 22)
      else .error (x.fault true false) := by
  simp only [translate, hon, hpse, h.present, h.large, h.reserved, h.writable, h.user, h.high,
    h.frame, Bool.not_true, Bool.and_self, Bool.false_eq_true, ↓reduceIte, Nat.zero_mul,
    Nat.zero_add]

end Ia32

end Shiro
