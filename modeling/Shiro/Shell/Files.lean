import Shiro.Initrd.RoundTrip
import Shiro.Lib.TextLines
import Shiro.Shell.Commands

/-!
# Text files

`cat` prints a file of the ramdisk, and `shiro_main` runs the lines of `init.sh`, with the same loop
over the bytes: it collects a line in a buffer of eighty bytes, and flushes the buffer at a newline
and when it is full.  A line that is too long is flushed in pieces.  That is right for `cat`, but
the script takes each piece for a line of its own, so the tail of a long comment is run.

The script's loop is modelled for commands that return and leave the ramdisk alone.

* `feed` : the loop, with what it does to a line.
* `cmdCat`, `initScript` : `Commands::cmd_cat`, and the loop of `shiro_main`.
* `feed_append`, `feed_eq` : what is in the buffer behind some bytes; **what the loop flushes**.
* `cat_prints` : **`cat` prints the lines of the file**, in pieces.
* `holds_image` : the files of a loaded image can be printed and run.
* `script_iff` : **the script's commands are run, and nothing else**, exactly when no comment has a
  piece that does not begin with `#`.
-/

namespace Shiro

open Initrd

/-- `'\r'` -/
def carriageReturn : UInt8 := 13

/-- `'#'` -/
def hash : UInt8 := 35

/-- The loop over the bytes of a file, where `held` stands for `line[0]` to `line[li - 1]` and `flush`
for what is done with the line when it is complete. -/
def feed (flush : List UInt8 → List (List UInt8)) : List UInt8 → List UInt8 → List (List UInt8)
  | held, [] => if held.length > 0 then flush held else []
  | held, b :: bs =>
    if b = carriageReturn then feed flush held bs
    else if b = newline ∨ held.length ≥ 79 then
      flush held ++ feed flush (if b ≠ newline then [b] else []) bs
    else feed flush (held ++ [b]) bs

/-- `Print(line)` -/
def catFlush (held : List UInt8) : List (List UInt8) := [cstr held]

/-- `if (li > 0 && line[0] != '#') Dispatch(line);` -/
def scriptFlush (held : List UInt8) : List (List UInt8) :=
  if held.length > 0 ∧ held.head? ≠ some hash then [cstr held] else []

/-- `cmd_cat(args)`: the strings it prints. -/
def cmdCat (m : Mem) (r : Initrd) (args : ℕ) : List (List UInt8) :=
  if m.read8 args = 0 then [text "usage: cat <filename>"]
  else if !r.ready then [text "cat: initrd not loaded"]
  else
    let e := find m r args
    if e = 0 then
      [appendStr (appendStr [] 80 (text "cat: file not found: ")) 80 (m.readBytes args 80)]
    else
      let data := data m r e
      if data = 0 then [text "cat: read error"]
      else feed catFlush [] (m.readBytes data (size m e))

/-- Step 4 of `shiro_main`, where `name` points to `"init.sh"`: the lines passed to `Dispatch`. -/
def initScript (m : Mem) (r : Initrd) (name : ℕ) : List (List UInt8) :=
  let e := find m r name
  if e ≠ 0 then feed scriptFlush [] (m.readBytes (data m r e) (size m e)) else []

/-- The file that `Find(name)` returns has the contents `xs`. -/
structure Holds (m : Mem) (r : Initrd) (name : ℕ) (xs : List UInt8) : Prop where
  found : find m r name ≠ 0
  size : size m (find m r name) = xs.length
  bytes : m.BytesAt (data m r (find m r name)) xs

/-- The lines of a file, less the carriage returns. -/
def fileLines (xs : List UInt8) : List (List UInt8) :=
  lines newline (xs.filter fun c => c ≠ carriageReturn)

/-- The strings `printed` are the text `xs`: its lines in pieces.  No byte is lost but line ends,
none is printed out of its place, no string is too long, and only empty lines are blank. -/
structure PrintsText (xs : List UInt8) (printed : List (List UInt8)) : Prop where
  eq : printed = (fileLines xs).flatMap (pieces 79)
  whole : printed.flatten = xs.filter fun c => c ≠ carriageReturn ∧ c ≠ newline
  short : ∀ p ∈ printed, p.length ≤ 79
  blank : printed.count [] = (fileLines xs).count []

/-- A line of a script that is a command. -/
def IsCommand (l : List UInt8) : Prop := l ≠ [] ∧ l.head? ≠ some hash

instance (l : List UInt8) : Decidable (IsCommand l) := inferInstanceAs (Decidable (_ ∧ _))

variable {m : Mem} {r : Initrd} {name args : ℕ} {xs w rest held l p : List UInt8}
  {ps : List (List UInt8)} {flush : List UInt8 → List (List UInt8)}

/-! ### Lines -/

theorem newline_notMem_filter (hw : newline ∉ w) :
    newline ∉ w.filter fun c => c ≠ carriageReturn :=
  fun h => hw (List.mem_of_mem_filter h)

/-- The last line of a file, if no newline ends it. -/
theorem fileLines_last (hw : newline ∉ w) (hne : w.filter (fun c => c ≠ carriageReturn) ≠ []) :
    fileLines w = [w.filter fun c => c ≠ carriageReturn] :=
  lines_of_notMem (newline_notMem_filter hw) hne

/-- The first line of a file. -/
theorem fileLines_cons (hw : newline ∉ w) (rest : List UInt8) :
    fileLines (w ++ newline :: rest) =
      (w.filter fun c => c ≠ carriageReturn) :: fileLines rest := by
  rw [fileLines, List.filter_append, List.filter_cons_of_pos (by decide),
    lines_append_cons (newline_notMem_filter hw), fileLines]

/-! ### The loop -/

/-- **The loop invariant**: behind some bytes of a line its full pieces are flushed, and the last
one is in the buffer. -/
theorem feed_append (hw : newline ∉ w) (hheld : held.length ≤ 79)
    (hps : pieces 79 (held ++ w.filter fun c => c ≠ carriageReturn) = ps ++ [p])
    (rest : List UInt8) :
    feed flush held (w ++ rest) = ps.flatMap flush ++ feed flush p rest := by
  induction w generalizing held ps with
  | nil =>
    rw [List.filter_nil, List.append_nil, pieces_of_le hheld] at hps
    obtain ⟨rfl, hp⟩ := List.append_inj' ((List.nil_append _).trans hps) rfl
    cases hp
    rfl
  | cons b w ih =>
    obtain ⟨hb, hw⟩ := not_or.1 (mt List.mem_cons.2 hw)
    rw [List.cons_append, feed]
    by_cases hcr : b = carriageReturn
    · rw [List.filter_cons_of_neg (by simpa using hcr)] at hps
      rw [if_pos hcr]
      exact ih hw hheld hps
    · rw [List.filter_cons_of_pos (by simpa using hcr)] at hps
      rw [if_neg hcr]
      by_cases hfull : held.length ≥ 79
      · -- the buffer is full, and the byte begins the next piece
        have hlen : held.length = 79 := Nat.le_antisymm hheld hfull
        rw [pieces_append hlen (by decide) (List.cons_ne_nil _ _)] at hps
        cases ps with
        | nil =>
          obtain ⟨ps', p', heq, -⟩ := exists_last_piece (n := 79) (by decide)
            (b :: w.filter fun c => c ≠ carriageReturn)
          rw [heq] at hps
          simp at hps
        | cons q ps =>
          rw [List.cons_append] at hps
          obtain ⟨rfl, hrest⟩ := List.cons_eq_cons.1 hps
          rw [if_pos (.inr hfull), if_pos (Ne.symm hb),
            ih hw (Nat.le_of_ble_eq_true rfl : [b].length ≤ 79) hrest, List.flatMap_cons,
            List.append_assoc]
      · rw [if_neg (not_or.2 ⟨Ne.symm hb, hfull⟩)]
        refine ih hw ?_ ?_
        · rw [List.length_append, List.length_singleton]
          exact Nat.lt_of_not_le hfull
        · rwa [List.append_assoc, List.singleton_append]

/-- **What the loop flushes**: the pieces of every line. -/
theorem feed_eq (flush : List UInt8 → List (List UInt8)) (xs : List UInt8) :
    feed flush [] xs = (fileLines xs).flatMap fun l => (pieces 79 l).flatMap flush := by
  induction xs using lines_induction newline with
  | hlast w hw =>
    obtain ⟨ps, p, hps, hp⟩ := exists_last_piece (n := 79) (by decide)
      (w.filter fun c => c ≠ carriageReturn)
    have hfeed : feed flush [] (w ++ []) = ps.flatMap flush ++ feed flush p [] :=
      feed_append hw (by decide) hps []
    rw [List.append_nil] at hfeed
    rw [hfeed, feed]
    by_cases hnil : w.filter (fun c => c ≠ carriageReturn) = []
    · rw [hnil, pieces_of_le (by decide)] at hps
      obtain ⟨rfl, hp⟩ := List.append_inj' ((List.nil_append _).trans hps) rfl
      cases hp
      rw [fileLines, hnil, lines_nil]
      rfl
    · have hpos : p.length > 0 := List.length_pos_iff.2 fun h => hnil (hp.1 h)
      rw [fileLines_last hw hnil, List.flatMap_singleton, hps, List.flatMap_append,
        List.flatMap_singleton, if_pos hpos]
  | hline w rest hw ih =>
    obtain ⟨ps, p, hps, -⟩ := exists_last_piece (n := 79) (by decide)
      (w.filter fun c => c ≠ carriageReturn)
    have hfeed : feed flush [] (w ++ newline :: rest) = _ :=
      feed_append hw (by decide) hps (newline :: rest)
    rw [hfeed, feed, if_neg (by decide), if_pos (.inl rfl), if_neg (by decide), ih,
      fileLines_cons hw, List.flatMap_cons, hps, List.flatMap_append, List.flatMap_singleton,
      List.append_assoc]

/-! ### `cat` -/

theorem ready_of_find (h : find m r name ≠ 0) : r.ready = true := by
  by_contra hready
  rw [find, if_pos (by simpa using hready)] at h
  exact h rfl

/-- The lines of a file are made of its bytes. -/
theorem mem_of_mem_fileLines {c : UInt8} (hl : l ∈ fileLines xs) (hc : c ∈ l) : c ∈ xs := by
  have hflat : c ∈ (fileLines xs).flatten := List.mem_flatten.2 ⟨l, hl, hc⟩
  rw [fileLines, flatten_lines] at hflat
  exact List.mem_of_mem_filter (List.mem_of_mem_filter hflat)

theorem mem_of_mem_pieces {c : UInt8} (hp : p ∈ pieces 79 l) (hc : c ∈ p) : c ∈ l := by
  have hflat : c ∈ (pieces 79 l).flatten := List.mem_flatten.2 ⟨p, hp, hc⟩
  rwa [flatten_pieces (by decide)] at hflat

/-- A piece of a file without NUL is the string that stands in the buffer. -/
theorem cstr_piece (h0 : 0 ∉ xs) (hl : l ∈ fileLines xs) (hp : p ∈ pieces 79 l) : cstr p = p :=
  cstr_eq_self fun h => h0 (mem_of_mem_fileLines hl (mem_of_mem_pieces hp h))

/-- The pieces of the lines are the text. -/
theorem printsText (xs : List UInt8) : PrintsText xs ((fileLines xs).flatMap (pieces 79)) where
  eq := rfl
  whole := by
    have hflat : ∀ ls : List (List UInt8), (ls.flatMap (pieces 79)).flatten = ls.flatten := by
      intro ls
      induction ls with
      | nil => rfl
      | cons l ls ih =>
        rw [List.flatMap_cons, List.flatten_append, flatten_pieces (by decide), ih,
          List.flatten_cons]
    rw [hflat, fileLines, flatten_lines, List.filter_filter]
    refine List.filter_congr fun c _ => ?_
    simp [Bool.and_comm]
  short := by
    intro p hp
    obtain ⟨l, -, hp⟩ := List.mem_flatMap.1 hp
    exact length_le_of_mem_pieces (by decide) l p hp
  blank := by
    induction fileLines xs with
    | nil => rfl
    | cons l ls ih =>
      rw [List.flatMap_cons, List.count_append, ih, count_nil_pieces (by decide), List.count_cons,
        Nat.add_comm]
      simp only [beq_iff_eq]

/-- **`cat` prints the lines of the file**, long ones in pieces. -/
theorem cat_prints (h : Holds m r args xs) (hargs : m.read8 args ≠ 0)
    (hdata : data m r (find m r args) ≠ 0) (h0 : 0 ∉ xs) : PrintsText xs (cmdCat m r args) := by
  have hread : m.readBytes (data m r (find m r args)) (size m (find m r args)) = xs := by
    rw [h.size]
    exact Mem.readBytes_of_bytesAt h.bytes
  have hready : (!r.ready) = false := by rw [ready_of_find h.found, Bool.not_true]
  have hcat : cmdCat m r args = feed catFlush [] xs := by
    rw [cmdCat, if_neg hargs, hready, if_neg Bool.false_ne_true]
    dsimp only
    rw [if_neg h.found, if_neg hdata, hread]
  have hprinted : feed catFlush [] xs = (fileLines xs).flatMap (pieces 79) := by
    rw [feed_eq]
    refine List.flatMap_congr fun l hl => ?_
    have hsame : (pieces 79 l).flatMap catFlush = (pieces 79 l).flatMap fun p => [p] :=
      List.flatMap_congr fun p hp => congrArg (fun s => [s]) (cstr_piece h0 hl hp)
    rw [hsame, List.flatMap_singleton']
  rw [hcat, hprinted]
  exact printsText xs

/-- A ramdisk at 1 MiB with this script and a text. -/
def scriptRam (script : List UInt8) : Mem :=
  smallModule (image [⟨"init.sh", script⟩, ⟨"motd.txt", text "Welcome.\n\nType help.\r\n"⟩])

/-- The reader of such a ramdisk. -/
def scriptReader : Initrd := ⟨0x100000, 0x1000, 2, 0x100008, true⟩

/-- The files of a loaded image are found under the names of its table. -/
theorem holds_image {fs : List File} {a b i : ℕ} (hdir : Packable fs) (h : m.BytesAt a (image fs))
    (hfit : a + (image fs).length < 2 ^ 32) (hi : i < fs.length) :
    Holds m (loaded m a b) (a + 8 + i * 40) fs[i].payload := by
  have htrip : RoundTrip m (loaded m a b) fs a (image fs).length :=
    roundTrip_of_image (.refl fs) hdir h hfit
  obtain ⟨-, hfound, hsize, hbytes⟩ :=
    htrip.find fs[i] (List.getElem_mem hi) _ (name_at h hfit hdir.short hi)
  exact ⟨hfound, hsize, hbytes⟩

/-- Both files of such a ramdisk are found. -/
theorem holds_scriptRam (script : List UInt8) (hlen : script.length ≤ 1000) :
    Holds (scriptRam script) scriptReader 0x100008 script ∧
      Holds (scriptRam script) scriptReader 0x100030 (text "Welcome.\n\nType help.\r\n") := by
  obtain ⟨fs, hfs⟩ : ∃ fs : List File, fs =
      [⟨"init.sh", script⟩, ⟨"motd.txt", text "Welcome.\n\nType help.\r\n"⟩] := ⟨_, rfl⟩
  have hram : scriptRam script = smallModule (image fs) := by rw [hfs, scriptRam]
  have hcount : fs.length = 2 := by rw [hfs]; rfl
  have hfit : 0x100000 + (image fs).length < 2 ^ 32 := by
    have hpayloads : (payloads fs).length = script.length + 22 := by
      rw [hfs, payloads_cons, List.length_append]
      rfl
    rw [length_image, hpayloads, hcount, headerSize]
    omega
  have hdir : Packable fs := by
    subst hfs
    refine ⟨?_, ?_, ?_⟩
    · exact (by decide +kernel : ["init.sh", "motd.txt"].Nodup)
    · refine List.forall_mem_cons.2 ⟨?_, List.forall_mem_singleton.2 ?_⟩
      · exact (by decide +kernel : (utf8 "init.sh").length ≤ 31)
      · exact (by decide +kernel : (utf8 "motd.txt").length ≤ 31)
    · refine List.forall_mem_cons.2 ⟨?_, List.forall_mem_singleton.2 ?_⟩
      · exact (by decide +kernel : 0 ∉ utf8 "init.sh")
      · exact (by decide +kernel : 0 ∉ utf8 "motd.txt")
  have hbytes := bytesAt_smallModule hfit
  have hreader : scriptReader = loaded (scriptRam script) 0x100000 0x101000 := by
    rw [loaded, hram, (header_eq hbytes hfit).2, hcount]
    rfl
  rw [hreader, hram]
  have hfirst := holds_image (b := 0x101000) (i := 0) hdir hbytes hfit (by omega)
  have hsecond := holds_image (b := 0x101000) (i := 1) hdir hbytes hfit (by omega)
  subst hfs
  exact ⟨hfirst, hsecond⟩

/-- `cat motd.txt`. -/
theorem cat_prints_motd : PrintsText (text "Welcome.\n\nType help.\r\n")
    (cmdCat (scriptRam (text "clear\n")) scriptReader 0x100030) := by
  have hfind : find (scriptRam (text "clear\n")) scriptReader 0x100030 = 0x100030 := by
    decide +kernel
  refine cat_prints (holds_scriptRam _ (by decide)).2 (by decide +kernel) ?_ (by decide +kernel)
  rw [hfind]
  decide +kernel

/-! ### The script -/

/-- The pieces that the script's loop keeps. -/
theorem flatMap_scriptFlush {ps : List (List UInt8)} (h : ∀ p ∈ ps, cstr p = p) :
    ps.flatMap scriptFlush = ps.filter fun p => IsCommand p := by
  induction ps with
  | nil => rfl
  | cons p ps ih =>
    rw [List.flatMap_cons, ih fun q hq => h q (.tail _ hq), scriptFlush, h p (.head _)]
    by_cases hp : IsCommand p
    · rw [if_pos ⟨List.length_pos_iff.2 hp.1, hp.2⟩, List.filter_cons_of_pos (by simpa using hp)]
      rfl
    · rw [if_neg fun hc => hp ⟨List.length_pos_iff.1 hc.1, hc.2⟩,
        List.filter_cons_of_neg (by simpa using hp)]
      rfl

/-- **What the script runs**: the pieces of its lines that do not begin with `#`. -/
theorem initScript_eq (h : Holds m r name xs) (h0 : 0 ∉ xs) :
    initScript m r name =
      (fileLines xs).flatMap fun l => (pieces 79 l).filter fun p => IsCommand p := by
  have hread : m.readBytes (data m r (find m r name)) (size m (find m r name)) = xs := by
    rw [h.size]
    exact Mem.readBytes_of_bytesAt h.bytes
  rw [initScript, if_pos h.found, hread, feed_eq]
  exact List.flatMap_congr fun l hl => flatMap_scriptFlush fun p hp => cstr_piece h0 hl hp

/-- A comment is ignored exactly when all of its pieces begin with `#`. -/
theorem filter_pieces_iff (l : List UInt8) (hl : l ≠ []) :
    ((pieces 79 l).filter fun p => IsCommand p) = [] ↔ ∀ k, ∀ c ∈ l[79 * k]?, c = hash := by
  have hne : ∀ p ∈ pieces 79 l, p ≠ [] := by
    rintro p hp rfl
    have hcount := count_nil_pieces (n := 79) (by decide) l
    rw [if_neg hl] at hcount
    exact List.count_eq_zero.1 hcount hp
  rw [← forall_head_pieces_iff (by decide) (fun c => c = hash) l, List.filter_eq_nil_iff]
  refine forall₂_congr fun p hp => ?_
  obtain ⟨c, p', rfl⟩ := List.exists_cons_of_ne_nil (hne p hp)
  simp [IsCommand]

/-- A comment that fits the buffer is one piece. -/
theorem comment_of_short (hlen : l.length ≤ 79) (hhash : l.head? = some hash) (k : ℕ) :
    ∀ c ∈ l[79 * k]?, c = hash := by
  intro c hc
  cases k with
  | zero =>
    rw [Nat.mul_zero, ← List.head?_eq_getElem?, hhash] at hc
    exact (Option.some.inj hc).symm
  | succ k =>
    have hle : l.length ≤ 79 * (k + 1) := hlen.trans (Nat.le_mul_of_pos_right 79 k.succ_pos)
    rw [List.getElem?_eq_none hle] at hc
    cases hc

/-- **The commands of the script are run, and nothing else**, exactly when in every comment the
bytes at the multiples of 79 are `#`. -/
theorem script_iff (h : Holds m r name xs) (h0 : 0 ∉ xs)
    (hshort : ∀ l ∈ fileLines xs, IsCommand l → l.length ≤ 79) :
    initScript m r name = ((fileLines xs).filter fun l => IsCommand l) ↔
      ∀ l ∈ fileLines xs, l.head? = some hash → ∀ k, ∀ c ∈ l[79 * k]?, c = hash := by
  have hfilter : ∀ ls : List (List UInt8), (ls.filter fun l => IsCommand l) =
      ls.flatMap fun l => [l].filter fun l => IsCommand l := by
    intro ls
    induction ls with
    | nil => rfl
    | cons l ls ih => rw [List.flatMap_cons, ← ih, ← List.filter_append, List.singleton_append]
  have hcommand : ∀ l ∈ fileLines xs, IsCommand l →
      ((pieces 79 l).filter fun p => IsCommand p) = [l].filter fun l => IsCommand l := by
    intro l hl hc
    rw [pieces_of_le (hshort l hl hc)]
  have hother : ∀ l : List UInt8, ¬ IsCommand l → ([l].filter fun l => IsCommand l) = [] := by
    intro l hc
    rw [List.filter_cons_of_neg (by simpa using hc), List.filter_nil]
  rw [initScript_eq h h0, hfilter]
  constructor
  · intro heq l hl hhash
    have hc : ¬ IsCommand l := fun hc => hc.2 hhash
    have hne : l ≠ [] := by
      rintro rfl
      cases hhash
    -- line by line the script runs at least the commands
    have hline := eq_of_flatMap_eq (fun l hl => ?_) heq.symm l hl
    · rw [hother l hc] at hline
      exact (filter_pieces_iff l hne).1 hline.symm
    · by_cases hc : IsCommand l
      · rw [hcommand l hl hc]
      · rw [hother l hc]
        exact Nat.zero_le _
  · intro hhash
    refine List.flatMap_congr fun l hl => ?_
    by_cases hc : IsCommand l
    · exact hcommand l hl hc
    · rw [hother l hc]
      by_cases hne : l = []
      · rw [hne, pieces_of_le (by decide)]
        rfl
      · refine (filter_pieces_iff l hne).2 (hhash l hl ?_)
        by_contra hh
        exact hc ⟨hne, hh⟩

/-- A script with a short comment and two commands. -/
def goodScript : List UInt8 := text "# Greet.\n\nclear\r\ncat motd.txt"

/-- A script with one comment, and no command. -/
def badScript : List UInt8 :=
  text "# Type help for a list of the commands of this shell, and when you are done do halt\n"

/-- A script that runs as it should. -/
theorem script_good : initScript (scriptRam goodScript) scriptReader 0x100008 =
    (fileLines goodScript).filter fun l => IsCommand l := by
  have hholds : Holds (scriptRam goodScript) scriptReader 0x100008 goodScript :=
    (holds_scriptRam _ (by decide +kernel)).1
  have hlines : fileLines goodScript =
      [text "# Greet.", [], text "clear", text "cat motd.txt"] := by decide +kernel
  refine (script_iff hholds (by decide +kernel) ?_).2 ?_
  · rw [hlines]
    decide
  · rw [hlines]
    intro l hl hhash
    have hshort : ∀ l ∈ [text "# Greet.", [], text "clear", text "cat motd.txt"],
        l.length ≤ 79 := by decide
    exact comment_of_short (hshort l hl) hhash

/-- A comment of 83 bytes runs `halt`. -/
theorem not_script_halt : ¬ ∀ m r name xs, Holds m r name xs → 0 ∉ xs →
    (∀ l ∈ fileLines xs, IsCommand l → l.length ≤ 79) →
      initScript m r name = (fileLines xs).filter fun l => IsCommand l := by
  intro hall
  have hholds : Holds (scriptRam badScript) scriptReader 0x100008 badScript :=
    (holds_scriptRam _ (by decide +kernel)).1
  have h0 : 0 ∉ badScript := by decide +kernel
  have hrun := hall _ _ _ _ hholds h0 (by decide +kernel)
  rw [initScript_eq hholds h0] at hrun
  exact absurd hrun (by decide +kernel)

end Shiro
