import DocxTemplate.Proofs.Disk.Making
import DocxTemplate.Proofs.Package.Extract

/-! # Unpacking that succeeds

    Files with plain names, none of which lies in another one, are unpacked to every directory whose
    path names it and has no file in its way.

    * `Package.Destination`: the paths that an archive can be unpacked to.
    * `Package.Room`, `Package.exists_ends_unpackEntries`: entries are written one after another,
      and each leaves room for those behind it.
    * `Package.exists_ends_unpack`: unpacking succeeds.
    * `Package.fits_of_ends_unpackEntries`: it does so only if the paths of all files fit.
-/

namespace DocxTemplate.Package

open Job
open Path (IsName)

variable {w w' : World} {archive target : Path} {entries : List Archive.Entry} {l : Location}

/-! ## The directory -/

/-- A directory that some entries can be unpacked to, or a place for one. -/
structure Destination (target : Path) (entries : List Archive.Entry) (d : Disk) : Prop where
  tree : d.IsTree
  /-- The path names its target, -/
  direct : target.Direct d
  /-- it ends in a name or goes up, and no file is in its way, -/
  passable : target.Passable d
  /-- and it does not lead through the target. -/
  outside : ∀ j ∈ target.withoutSlashes.way d.current, ¬ target.target d.current <+: j
  /-- The system accepts the paths of all entries. -/
  fits : ∀ e ∈ entries, (target.join e.name).Fits

/-- A path that does not go up leads to its target from outside. -/
theorem destination_of_noUp {d : Disk} (htree : d.IsTree) (hp : target.Passable d)
    (hup : ".." ∉ target.steps) (hfits : ∀ e ∈ entries, (target.join e.name).Fits) :
    Destination target entries d := by
  refine ⟨htree, Path.direct_of_noUp htree hp.fits.nonempty hup, hp, fun j hj hbelow => ?_, hfits⟩
  obtain ⟨last, hlast, hstep⟩ := hp.ends
  obtain ⟨front, hfront⟩ := List.getLast?_eq_some_iff.1 hlast
  obtain ⟨n, hsteps, habs⟩ := Path.exists_steps_withoutSlashes target
  rw [hsteps, hfront, List.append_assoc, List.mem_append, not_or] at hup
  have hname : last ≠ ".." := fun heq => hup.2 (by simp [heq])
  -- The target lies in the last place that is passed.
  have htarget : target.target d.current =
      Disk.reach (target.start d.current) front ++ [last] := by
    rw [← Path.target_withoutSlashes, Path.target, Path.start, habs, hfront, Disk.reach_append,
      Disk.reach_cons, Disk.reach_nil, Disk.move, if_neg (by simp [hstep]),
      if_neg (by simpa using hname)]
    rfl
  have habove : j <+: Disk.reach (target.start d.current) front := by
    rw [Path.way, hfront, Path.start, habs, Disk.passed_append, List.mem_append] at hj
    rcases hj with hj | hj
    · exact Disk.prefix_of_mem_passed hup.1 hj
    · rw [List.mem_singleton.1 hj]
      exact List.prefix_rfl
  have hlength := (hbelow.trans habove).length_le
  rw [htarget, List.length_append, List.length_singleton] at hlength
  omega

/-- What can be made a directory can be removed before, and still be made. -/
theorem exists_ends_remove (h : Destination target entries w.disk) :
    ∃ w₁, Ends (remove target) w () w₁ ∧ w₁.disk.current = w.disk.current ∧
      target.Passable w₁.disk := by
  have hp := h.passable
  have hends : ∀ disk, w.disk.removeTree target = (disk, .ok ()) ∨
      w.disk.removeTree target = (disk, .error .notFound) →
        Ends (remove target) w () { w with disk := disk } := by
    intro disk hremove
    rw [Ends, outcome_remove]
    rcases hremove with hremove | hremove <;> rw [hremove]
    · rw [if_neg (by simp)]
      rfl
    · rw [if_pos rfl]
  have hmissing : w.disk.find target = .error .notFound →
      ∃ w₁, Ends (remove target) w () w₁ ∧ w₁.disk.current = w.disk.current ∧
        target.Passable w₁.disk := by
    intro hfind
    exact ⟨_, hends w.disk (Or.inr (by rw [Disk.removeTree, hfind])), rfl, hp⟩
  rcases Disk.locate_cases hp.fits fun j hj => hp.free j (Or.inr hj) with hlocate | hlocate
  · rcases Disk.node?_of_file?_eq_none (hp.free _ (Or.inl rfl)) with hnone | hdir
    · exact hmissing (by rw [Disk.find, hlocate]; dsimp only; rw [hnone])
    · have hremove := Disk.removeTree_of_outside h.direct.outside
        (Disk.find_eq_ok_iff.2 ⟨hlocate, hdir⟩)
      rw [if_neg (by simpa using hp.ends.lastSegment?_ne)] at hremove
      refine ⟨_, hends _ (Or.inl hremove), rfl, ?_⟩
      -- The path starts outside of its target.
      have hstart : ¬ target.target w.disk.current <+: target.start w.disk.current := by
        apply h.outside
        obtain ⟨n, -, habs⟩ := Path.exists_steps_withoutSlashes target
        rw [Path.way, Path.start, habs]
        exact Disk.mem_passed_of_ne_nil target.withoutSlashes.steps_ne_nil
      have hne : target.target w.disk.current ≠ [] := by
        intro hnil
        rw [hnil] at hstart
        exact hstart List.nil_prefix
      refine ⟨hp.fits, hp.ends, ?_, fun k hk => ?_⟩
      · dsimp only
        rw [Disk.node?_prune hne, if_neg (by exact hstart)]
        exact hp.starts
      · rw [Disk.file?]
        dsimp only
        rw [Disk.node?_prune hne]
        by_cases hbelow : target.target w.disk.current <+: k
        · rw [if_pos hbelow]
        · rw [if_neg hbelow]
          exact hp.free k hk
  · exact hmissing (by rw [Disk.find, hlocate])

/-! ## The entries -/

/-- Neither entry lies in the other one. -/
def Apart (e e' : Archive.Entry) : Prop := ¬ e.place <+: e'.place ∧ ¬ e'.place <+: e.place

/-- Entries that are files with plain names, each at a place of its own. -/
structure Sound (entries : List Archive.Entry) : Prop where
  isFile : ∀ e ∈ entries, e.isDirectory = false
  spells : ∀ e ∈ entries, ∃ names, e.Spells names
  safe : ∀ e ∈ entries, e.isSafe = true
  apart : entries.Pairwise Apart

/-- In a directory there is room for entries: the way is there, and nothing is where they belong. -/
structure Room (target : Path) (l : Location) (entries : List Archive.Entry) (d : Disk) : Prop where
  root : d.node? l = some .directory
  way : ∀ j ∈ target.way d.current, d.node? j = some .directory
  noFile : ∀ e ∈ entries, ∀ k, k <+: e.place → d.file? (l ++ k) = none
  noDirectory : ∀ e ∈ entries, d.node? (l ++ e.place) ≠ some .directory

/-- The name of an entry that is spelled is not empty. -/
theorem name_ne_of_spells {e : Archive.Entry} {names : List String} (h : e.Spells names) :
    e.name ≠ "" := by
  intro hempty
  have hon := h.on_eq
  rw [hempty] at hon
  obtain ⟨first, rest, hfirst⟩ := List.exists_cons_of_ne_nil h.nonempty
  rw [hfirst, List.cons_append] at hon
  have hname := (h.isName first (by simp [hfirst])).1.1
  rw [← (List.cons.inj hon).1] at hname
  exact hname (by decide)

/-- The path of a file does not end in a slash. -/
theorem exists_getLast?_join {e : Archive.Entry} (hfile : e.isDirectory = false)
    (hname : e.name ≠ "") (target : Path) :
    ∃ b, (target.join e.name).text.toList.getLast? = some b ∧ b ≠ '/' := by
  obtain ⟨front, hfront⟩ := Path.exists_text_join target e.name
  have hne : e.name.toList ≠ [] := fun hnil => hname (String.toList_eq_nil_iff.1 hnil)
  obtain ⟨b, hb⟩ := Option.ne_none_iff_exists'.1 (mt List.getLast?_eq_none_iff.1 hne)
  refine ⟨b, by rw [hfront, List.getLast?_append, hb, Option.some_or], ?_⟩
  rintro rfl
  rw [Archive.Entry.isDirectory, hb] at hfile
  simp at hfile

/-- It ends in the last name of the entry. -/
theorem endsInStep_join {e : Archive.Entry} {names : List String} (hfile : e.isDirectory = false)
    (spells : e.Spells names) (safe : e.isSafe = true) (target : Path) :
    (target.join e.name).withoutSlashes = target.join e.name ∧
      (target.join e.name).EndsInStep := by
  obtain ⟨b, hb, hslash⟩ := exists_getLast?_join hfile (name_ne_of_spells spells) target
  have hself := Path.withoutSlashes_eq_self hb hslash
  obtain ⟨front, -, hsteps⟩ :=
    Path.exists_steps_join target (Archive.Entry.below_of_isSafe safe []).1
  obtain ⟨before, last, hnames⟩ := List.eq_nil_or_concat names |>.resolve_left spells.nonempty
  refine ⟨hself, last, ?_, Path.isVoid_eq_false (spells.isName last (by simp [hnames])).1⟩
  rw [hself, hsteps, spells.on_eq, hfile, hnames]
  simp

/-- There is room for an entry: its path can be made. -/
theorem Room.passable {e : Archive.Entry} (room : Room target l entries w.disk)
    (sound : Sound entries) (hl : target.target w.disk.current = l) (he : e ∈ entries)
    (hfits : (target.join e.name).Fits) : (target.join e.name).Passable w.disk := by
  obtain ⟨names, spells⟩ := sound.spells e he
  have hsafe := sound.safe e he
  obtain ⟨hrelative, -, -⟩ := Archive.Entry.below_of_isSafe hsafe l
  have hnone : ∀ {j : Location}, w.disk.node? j = some .directory → w.disk.file? j = none :=
    fun hdir => by rw [Disk.file?, hdir]
  refine ⟨hfits, (endsInStep_join (sound.isFile e he) spells hsafe target).2, ?_, ?_⟩
  · rw [Path.start, Path.isAbsolute_join hrelative]
    exact room.way _ (Disk.mem_passed_of_ne_nil target.steps_ne_nil)
  · rintro k (rfl | hk)
    · rw [Archive.Entry.target_join hsafe, hl]
      exact room.noFile e he _ List.prefix_rfl
    · rw [Path.mem_way_join_iff target hrelative, hl, spells.mem_passed_iff] at hk
      rcases hk with hk | ⟨k', hneeds, rfl⟩
      · exact hnone (room.way k hk)
      · exact room.noFile e he k' hneeds.1

/-- The way to a file does not pass the place of the file. -/
theorem place_not_mem_way {e : Archive.Entry} {names : List String} {c : Location}
    (hfile : e.isDirectory = false) (spells : e.Spells names) (safe : e.isSafe = true)
    (hl : target.target c = l) (outside : ∀ j ∈ target.way c, l <+: j → j = l) :
    l ++ e.place ∉ (target.join e.name).way c := by
  rw [mem_way_entry_iff spells safe hl]
  rintro (hmem | hneeds)
  · have hnil := outside _ hmem (List.prefix_append _ _)
    rw [List.append_right_eq_self, spells.place_eq] at hnil
    exact spells.nonempty hnil
  · have hdir := hneeds.2 rfl
    rw [hfile] at hdir
    cases hdir

/-- So no directory is made there with the parent. -/
theorem Room.noDirectory_behind {e : Archive.Entry} {q : Path} {d : Disk}
    (room : Room target l entries d) (he : e ∈ entries)
    (hplace : l ++ e.place ∉ (target.join e.name).way d.current)
    (hq : (target.join e.name).parent? = some q) :
    (d.createDirectories q).1.node? (l ++ e.place) ≠ some .directory := by
  rcases (Disk.makes_createDirectories d q).node?_cases (l ++ e.place) with heq | ⟨-, -, hvisits⟩
  · rw [heq]
    exact room.noDirectory e he
  · obtain ⟨htop, habove⟩ := Path.way_parent hq d.current
    rcases hvisits.2 with heq | hmem
    · rw [heq] at hplace
      exact absurd htop hplace
    · exact absurd (habove _ hmem) hplace

/-- An entry is written where there is room for it. -/
theorem exists_ends_unpackEntry {e : Archive.Entry} (room : Room target l entries w.disk)
    (sound : Sound entries) (hl : target.target w.disk.current = l)
    (outside : ∀ j ∈ target.way w.disk.current, l <+: j → j = l) (he : e ∈ entries)
    (hfits : (target.join e.name).Fits) : ∃ w', Ends (unpackEntry target e) w 1 w' := by
  obtain ⟨names, spells⟩ := sound.spells e he
  have hfile := sound.isFile e he
  have hsafe := sound.safe e he
  have hpassable := room.passable sound hl he hfits
  obtain ⟨hself, -⟩ := endsInStep_join hfile spells hsafe target
  obtain ⟨b, hb, hslash⟩ := exists_getLast?_join hfile (name_ne_of_spells spells) target
  obtain ⟨q, hq, hdone, hway⟩ := hpassable.exists_parent
  rw [hself] at hway
  have hmakes := Disk.makes_createDirectories w.disk q
  have hplain : (w.disk.createDirectories q).1.node?
      ((target.join e.name).target (w.disk.createDirectories q).1.current) ≠ some .directory := by
    rw [hmakes.current_eq, Archive.Entry.target_join hsafe, hl]
    exact room.noDirectory_behind he (place_not_mem_way hfile spells hsafe hl outside) hq
  have hends : (target.join e.name).endsInSlash = false := by
    rw [Path.endsInSlash, hb]
    simpa using hslash
  obtain ⟨disk, hwrite⟩ : ∃ disk, (w.disk.createDirectories q).1.write (target.join e.name)
      (.plain e.data) = .ok disk :=
    ⟨_, Disk.write_eq_ok hfits hends (by rwa [hmakes.current_eq]) hplain⟩
  have hjob : unpackEntry target e = (do
      Job.createDirectories q
      Job.write (target.join e.name) (.plain e.data)
      return 1) := by
    rw [unpackEntry, hfile, hq]
    rfl
  rw [hjob]
  exact ⟨_, ends_bind_iff.2 ⟨(), _, ends_createDirectories_iff.2 ⟨hdone, rfl⟩, ends_bind_iff.2
    ⟨(), _, ends_write_iff.2 ⟨disk, hwrite, rfl⟩, ends_pure_iff.2 ⟨rfl, rfl⟩⟩⟩⟩

/-- An entry that is written leaves room for those behind it. -/
theorem Room.rest {e : Archive.Entry} {rest : List Archive.Entry} {n : Nat}
    (room : Room target l (e :: rest) w.disk) (sound : Sound (e :: rest))
    (hl : target.target w.disk.current = l)
    (outside : ∀ j ∈ target.way w.disk.current, l <+: j → j = l)
    (h : Ends (unpackEntry target e) w n w') : Room target l rest w'.disk := by
  obtain ⟨names, spells⟩ := sound.spells e List.mem_cons_self
  have hfile := sound.isFile e List.mem_cons_self
  have hsafe := sound.safe e List.mem_cons_self
  have hdirs := directory_of_ends_unpackEntry spells hsafe hl outside room.root h
  obtain ⟨hchanges, hfiles⟩ := disk_of_ends_unpackEntry hsafe h
  rw [hl] at hfiles
  have hbelow : Job.Keeps (Below target w.disk.current l) IsIo (unpackEntry target e) :=
    keepsBelow_unpackEntry hl hsafe
  have hsame := (hbelow.of_ends h rfl).2 fun k hk _ => room.way k hk
  have hroot : w'.disk.node? l = some .directory := by
    have hself := hdirs []
    rw [List.append_nil] at hself
    exact hself.2 (Or.inl room.root)
  refine ⟨hroot, fun j hj => ?_, fun e' he' k hk => ?_, fun e' he' hdir => ?_⟩
  · rw [hchanges.current_eq] at hj
    by_cases hjl : l <+: j
    · rw [outside j hj hjl, hroot]
    · rw [hsame j hjl]
      exact room.way j hj
  · have hapart := (List.pairwise_cons.1 sound.apart).1 e' he'
    rw [hfiles, if_neg, room.noFile e' (List.mem_cons_of_mem _ he') k hk]
    rw [Bool.and_eq_true, beq_iff_eq]
    rintro ⟨-, rfl⟩
    exact hapart.1 hk
  · have hapart := (List.pairwise_cons.1 sound.apart).1 e' he'
    rcases (hdirs e'.place).1 hdir with hbefore | hneeds
    · exact room.noDirectory e' (List.mem_cons_of_mem _ he') hbefore
    · exact hapart.2 hneeds.1

theorem Sound.tail {e : Archive.Entry} {rest : List Archive.Entry} (h : Sound (e :: rest)) :
    Sound rest :=
  ⟨fun e' he' => h.isFile e' (List.mem_cons_of_mem _ he'),
    fun e' he' => h.spells e' (List.mem_cons_of_mem _ he'),
    fun e' he' => h.safe e' (List.mem_cons_of_mem _ he'), (List.pairwise_cons.1 h.apart).2⟩

theorem exists_ends_unpackEntries (sound : Sound entries) (hl : target.target w.disk.current = l)
    (outside : ∀ j ∈ target.way w.disk.current, l <+: j → j = l)
    (hfits : ∀ e ∈ entries, (target.join e.name).Fits) (room : Room target l entries w.disk) :
    ∃ n w', Ends (unpackEntries target entries) w n w' := by
  induction entries generalizing w with
  | nil => exact ⟨0, w, ends_pure_iff.2 ⟨rfl, rfl⟩⟩
  | cons e rest ih =>
    obtain ⟨w₁, hfirst⟩ := exists_ends_unpackEntry room sound hl outside List.mem_cons_self
      (hfits e List.mem_cons_self)
    have hcurrent := (disk_of_ends_unpackEntry (sound.safe e List.mem_cons_self) hfirst).1.current_eq
    obtain ⟨n, w₂, hrest⟩ := ih sound.tail (by rwa [hcurrent]) (by rwa [hcurrent])
      (fun e' he' => hfits e' (List.mem_cons_of_mem _ he')) (room.rest sound hl outside hfirst)
    exact ⟨1 + n, w₂, ends_bind_iff.2 ⟨1, w₁, hfirst, ends_bind_iff.2
      ⟨n, w₂, hrest, ends_pure_iff.2 ⟨rfl, rfl⟩⟩⟩⟩

/-! ## A whole run -/

theorem exists_ends_replace (sound : Sound entries) (h : Destination target entries w.disk) :
    ∃ n w', Ends (replace archive target entries) w n w' := by
  obtain ⟨w₁, hremove, hcurrent₁, hpassable⟩ := exists_ends_remove h
  have hcreate : Ends (Job.createDirectories target) w₁ () _ :=
    ends_createDirectories_iff.2 ⟨hpassable.createDirectories_eq_ok, rfl⟩
  obtain ⟨hcurrent, hroot, hempty⟩ := cleared_of_ends h.tree h.direct rfl hremove hcreate
  have hway := directory_of_way (by rw [hcurrent₁]) rfl hcreate
  have houtside := h.direct.outside
  rw [hcurrent₁] at hway
  generalize hw₂ : ({ w₁ with disk := (w₁.disk.createDirectories target).1 } : World) = w₂ at *
  have hroom : Room target (target.target w.disk.current) entries w₂.disk := by
    refine ⟨hroot, fun j hj => ?_, fun e he k hk => ?_, fun e he hdir => ?_⟩
    · rw [hcurrent] at hj
      by_cases hbelow : target.target w.disk.current <+: j
      · rw [houtside j hj hbelow, hroot]
      · exact hway j hj hbelow
    · rw [Disk.file?]
      by_cases hk : k = []
      · rw [hk, List.append_nil, hroot]
      · rw [hempty k hk]
    · obtain ⟨names, spells⟩ := sound.spells e he
      rw [spells.place_eq] at hdir
      rw [hempty names spells.nonempty] at hdir
      cases hdir
  obtain ⟨n, w₃, hunpack⟩ := exists_ends_unpackEntries sound (by rw [hcurrent])
    (by rwa [hcurrent]) h.fits hroom
  exact ⟨n, _, ends_bind_iff.2 ⟨(), w₁, hremove, ends_bind_iff.2 ⟨(), w₂, hcreate,
    ends_bind_iff.2 ⟨n, w₃, hunpack, ends_bind_iff.2 ⟨(), _, ends_log_iff.2 rfl,
      ends_pure_iff.2 ⟨rfl, rfl⟩⟩⟩⟩⟩⟩

/-- An archive of sound files is unpacked, and the directory holds it. -/
theorem exists_ends_unpack (hopen : openEntries w.disk archive = .ok entries)
    (hsound : ∀ e ∈ entries, ¬ e.Refused) (sound : Sound entries)
    (h : Destination target entries w.disk) : ∃ w', Ends (unpack archive target) w entries.length w' ∧
      Holds entries (target.target w.disk.current) w'.disk := by
  obtain ⟨n, w', hends⟩ : ∃ n w', Ends (replace archive target entries) w n w' :=
    exists_ends_replace sound h
  obtain ⟨hn, hholds⟩ := holds_of_ends_replace h.tree h.direct rfl sound.spells
    (nodup_of_openEntries hopen) sound.safe hends
  have hfiles : Archive.files entries = entries :=
    List.filter_eq_self.2 fun e he => by rw [sound.isFile e he]; rfl
  rw [hfiles] at hn
  refine ⟨w', ?_, hholds⟩
  rw [Ends, outcome_unpack, accepted_eq_ok_iff.2 ⟨hopen, hsound⟩]
  rwa [← hn]

/-- The paths of the files have to fit, or unpacking fails. -/
theorem fits_of_ends_unpackEntries {n : Nat} (h : Ends (unpackEntries target entries) w n w')
    {e : Archive.Entry} (he : e ∈ entries) (hfile : e.isDirectory = false) :
    (target.join e.name).Fits := by
  induction entries generalizing w n with
  | nil => cases he
  | cons first rest ih =>
    obtain ⟨m, w₁, hfirst, h⟩ := ends_bind_iff.1 h
    obtain ⟨m', w₂, hrest, h⟩ := ends_bind_iff.1 h
    obtain ⟨-, rfl⟩ := ends_pure_iff.1 h
    rcases List.mem_cons.1 he with rfl | he
    · rcases cases_of_ends_unpackEntry hfirst with ⟨hdir, -⟩ | ⟨-, -, d, -, hwrite⟩
      · rw [hfile] at hdir
        cases hdir
      · exact (Disk.locate_eq_ok_iff.1 (Disk.exists_of_write hwrite).1).1
    · exact ih hrest he

end DocxTemplate.Package
