import Shiro.Lib.Lts
import Shiro.Lib.Reads
import Shiro.Multiboot.Tags

/-!
# What a walk over the tags reads

The loop over the tags once more, as a computation that says which bytes it reads.  It follows the
sizes it finds, whatever the bytes of the block: it has no counter, and does not know where the
block ends.

* `Visited` : the cursors the sizes lead to.
* `walkTagsReads` : the loop; `run_walkTagsReads` connects it with `walkTags`.
* `walkTags_isSome` : **a walk that can reach an end tag ends**, whatever the sizes.
* `within_walkTagsReads`, `visited_of_within` : what a walk reads, and what it must have read.
-/

namespace Shiro

open Reads

namespace Multiboot

variable {σ : Type} {m : Mem} {P : ℕ → Prop} {a c : ℕ} {fuel : ℕ}

/-- The sizes of the tags lead from `a` to the cursor `c`. -/
inductive Visited (m : Mem) (a : ℕ) : ℕ → Prop
  | here : Visited m a a
  | next {c : ℕ} : Visited m a c → m.read32 c ≠ tagEnd → Visited m a (nextTag m c)

/-- The loop over the tags from `cursor` on. -/
def walkTagsReads (body : ℕ → σ → Reads ℕ UInt8 (Option (ForInStep σ))) :
    ℕ → ℕ → σ → Reads ℕ UInt8 (Option σ)
  | 0, _, _ => return none
  | fuel + 1, cursor, s => do
    let type ← read32 cursor
    if type = tagEnd then return some s
    else do
      match ← body cursor s with
      | none => return none
      | some (.done s) => return some s
      | some (.yield s) => do
        let size ← read32 (cursor + 4)
        walkTagsReads body fuel (u32 (cursor + andNot 32 (u32 (size + 7)) 7)) s

@[simp] theorem run_walkTagsReads (m : Mem) (body : ℕ → σ → Reads ℕ UInt8 (Option (ForInStep σ)))
    (fuel cursor : ℕ) (s : σ) : (walkTagsReads body fuel cursor s).run m =
      walkTags m (fun c s => (body c s).run m) fuel cursor s := by
  induction fuel generalizing cursor s with
  | zero => rfl
  | succ fuel ih =>
    rw [walkTagsReads, walkTags, run_bind, run_ite, run_bind, run_read32]
    split
    · rfl
    · cases (body cursor s).run m with
      | none => rfl
      | some r =>
        cases r with
        | done s => rfl
        | yield s =>
          simp only [run_bind, run_read32, ih]
          rfl

/-! ### The cursors -/

/-- What is visited behind the first tag is visited. -/
theorem Visited.of_next (hne : m.read32 a ≠ tagEnd) (h : Visited m (nextTag m a) c) :
    Visited m a c := by
  induction h with
  | here => exact .next .here hne
  | next _ hc ih => exact .next ih hc

/-- The cursor is the first tag, or is visited behind it. -/
theorem visited_cases (h : Visited m a c) :
    c = a ∨ m.read32 a ≠ tagEnd ∧ Visited m (nextTag m a) c := by
  induction h with
  | here => exact .inl rfl
  | next hc hne ih =>
    rcases ih with rfl | ⟨ha, ih⟩
    · exact .inr ⟨hne, .here⟩
    · exact .inr ⟨ha, .next ih hne⟩

/-- A cursor is met after some steps. -/
theorem Visited.exists_iterate (h : Visited m a c) : ∃ k, (nextTag m)^[k] a = c := by
  induction h with
  | here => exact ⟨0, rfl⟩
  | next _ _ ih =>
    obtain ⟨k, rfl⟩ := ih
    exact ⟨k + 1, Function.iterate_succ_apply' _ _ _⟩

/-! ### The walk ends -/

theorem read32_u32 (m : Mem) (a : ℕ) : m.read32 (u32 a) = m.read32 a := by
  have hidem : u32 (u32 a) = u32 a := u32_of_lt (u32_lt a)
  simp only [Mem.read32, Mem.read8, u32_add_u32, hidem]

theorem nextTag_u32 (m : Mem) (a : ℕ) : nextTag m (u32 a) = nextTag m a := by
  have hsize : m.read32 (u32 a + 4) = m.read32 (a + 4) := by
    rw [← read32_u32 m (u32 a + 4), u32_add_u32, read32_u32]
  rw [nextTag, hsize, u32_add_u32, nextTag]

/-- The tags met do not depend on how the first cursor is written. -/
theorem read32_iterate_u32 (m : Mem) (a k : ℕ) :
    m.read32 ((nextTag m)^[k] (u32 a)) = m.read32 ((nextTag m)^[k] a) := by
  cases k with
  | zero => exact read32_u32 m a
  | succ k => rw [Function.iterate_succ_apply, Function.iterate_succ_apply, nextTag_u32]

/-- **An end tag that is reached at all is reached before the loop gives up.** -/
theorem exists_end_lt (h : ∃ c, Visited m a c ∧ m.read32 c = tagEnd) :
    ∃ k < walkFuel, m.read32 ((nextTag m)^[k] a) = tagEnd := by
  obtain ⟨c, hc, hend⟩ := h
  obtain ⟨k, rfl⟩ := hc.exists_iterate
  obtain ⟨j, hj, hend⟩ := exists_iterate_lt_card (s := Finset.range (2 ^ 32))
    (p := fun c => m.read32 c = tagEnd) (fun c _ => Finset.mem_range.2 (u32_lt _))
    (Finset.mem_range.2 (u32_lt a)) ⟨k, (read32_iterate_u32 m a k).trans hend⟩
  rw [Finset.card_range] at hj
  exact ⟨j, hj, (read32_iterate_u32 m a j).symm.trans hend⟩

theorem walkTags_isSome_of_lt {body : ℕ → σ → Option (ForInStep σ)} {k : ℕ} (hk : k < fuel)
    (hend : m.read32 ((nextTag m)^[k] a) = tagEnd)
    (hbody : ∀ c s, Visited m a c → m.read32 c ≠ tagEnd → (body c s).isSome) (s : σ) :
    (walkTags m body fuel a s).isSome := by
  induction fuel generalizing a k s with
  | zero => omega
  | succ fuel ih =>
    rw [walkTags]
    split
    · rfl
    · rename_i hne
      have hhead := hbody a s .here hne
      cases hr : body a s with
      | none =>
        rw [hr] at hhead
        cases hhead
      | some r =>
        cases r with
        | done s => rfl
        | yield s =>
          cases k with
          | zero => exact absurd hend hne
          | succ k =>
            have hrest : m.read32 ((nextTag m)^[k] (nextTag m a)) = tagEnd := hend
            exact ih (by omega) hrest (fun c s hc => hbody c s (.of_next hne hc)) s

/-- **A walk that can reach an end tag ends**, if its body does not fault on the way. -/
theorem walkTags_isSome {body : ℕ → σ → Option (ForInStep σ)}
    (hend : ∃ c, Visited m a c ∧ m.read32 c = tagEnd)
    (hbody : ∀ c s, Visited m a c → m.read32 c ≠ tagEnd → (body c s).isSome) (s : σ) :
    (walkTags m body walkFuel a s).isSome := by
  obtain ⟨k, hk, hend⟩ := exists_end_lt hend
  exact walkTags_isSome_of_lt hk hend hbody s

/-! ### What the walk reads -/

/-- A walk reads the types and sizes of the tags it visits, and what its body reads. -/
theorem within_walkTagsReads {body : ℕ → σ → Reads ℕ UInt8 (Option (ForInStep σ))}
    (htype : ∀ c, Visited m a c → Bytes P c 4)
    (hsize : ∀ c, Visited m a c → m.read32 c ≠ tagEnd → Bytes P (c + 4) 4)
    (hbody : ∀ c s, Visited m a c → m.read32 c ≠ tagEnd → (body c s).Within m P) (s : σ) :
    (walkTagsReads body fuel a s).Within m P := by
  induction fuel generalizing a s with
  | zero => exact within_pure none
  | succ fuel ih =>
    rw [walkTagsReads, within_bind, within_read32]
    refine ⟨htype a .here, ?_⟩
    split
    · exact within_pure _
    · rename_i hne
      rw [within_bind]
      refine ⟨hbody a s .here hne, ?_⟩
      split
      · exact within_pure none
      · exact within_pure _
      · rw [within_bind, within_read32]
        refine ⟨hsize a .here hne, ?_⟩
        exact ih (fun c hc => htype c (.of_next hne hc))
          (fun c hc => hsize c (.of_next hne hc)) (fun c s hc => hbody c s (.of_next hne hc)) _

/-- A walk that ends, and whose body never leaves the loop, has reached an end tag, and its body has
had its turn at every tag on the way. -/
theorem visited_of_within {body : ℕ → σ → Reads ℕ UInt8 (Option (ForInStep σ))} {s : σ}
    (hyield : ∀ c s t, (body c s).run m ≠ some (.done t))
    (hsome : ((walkTagsReads body fuel a s).run m).isSome)
    (h : (walkTagsReads body fuel a s).Within m P) :
    (∃ c, Visited m a c ∧ m.read32 c = tagEnd) ∧
      ∀ c, Visited m a c → Bytes P c 4 ∧ (m.read32 c ≠ tagEnd → Bytes P (c + 4) 4 ∧
        ∃ s, (body c s).Within m P ∧ ((body c s).run m).isSome) := by
  induction fuel generalizing a s with
  | zero => cases hsome
  | succ fuel ih =>
    rw [walkTagsReads, within_bind, within_read32, run_read32] at h
    rw [walkTagsReads, run_bind, run_read32] at hsome
    obtain ⟨htype, h⟩ := h
    by_cases hend : m.read32 a = tagEnd
    · refine ⟨⟨a, .here, hend⟩, fun c hc => ?_⟩
      rcases visited_cases hc with rfl | ⟨hne, -⟩
      · exact ⟨htype, fun hne => absurd hend hne⟩
      · exact absurd hend hne
    · rw [if_neg hend, within_bind] at h
      rw [if_neg hend, run_bind] at hsome
      obtain ⟨hbody, h⟩ := h
      cases hr : (body a s).run m with
      | none =>
        rw [hr] at hsome
        cases hsome
      | some r =>
        rw [hr] at h hsome
        cases r with
        | done t => exact absurd hr (hyield a s t)
        | yield t =>
          rw [within_bind, within_read32, run_read32] at h
          obtain ⟨hsize, h⟩ := h
          obtain ⟨⟨c, hc, hcend⟩, hrest⟩ := ih hsome h
          refine ⟨⟨c, .of_next hend hc, hcend⟩, fun c hc => ?_⟩
          rcases visited_cases hc with rfl | ⟨-, hc⟩
          · exact ⟨htype, fun _ => ⟨hsize, s, hbody, by rw [hr]; rfl⟩⟩
          · exact hrest c hc

end Multiboot

end Shiro
