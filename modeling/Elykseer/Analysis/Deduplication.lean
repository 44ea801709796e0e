import Elykseer.Analysis.Archive
import Elykseer.Analysis.FileBackup

/-!
# Entries that suppress a backup

An entry of the file-information store is added when the blocks of the file have been
handed to the write queue and drained, before it is known whether their assemblies can
be archived, and whatever `fread` returned: `backupRun_addedSaved`.
-/

set_option autoImplicit false

namespace Elykseer.Analysis

open Elykseer.Model Elykseer.Foundation

variable {C : Crypto} {H : Host} {cfg : CoqConfiguration}

/-- The blocks lie back to back from `pos` to `stop`, and none is empty. -/
def TilesRange : ℕ → List BlockInformation → ℕ → Prop
  | pos, [], stop => pos = stop
  | pos, bi :: bis, stop =>
    bi.filepos = pos ∧ 0 < bi.blocksize ∧ TilesRange (pos + bi.blocksize) bis stop

/-- The numbers of the blocks do not matter for tiling. -/
theorem tilesRange_unnumbered {pos stop : ℕ} {bis : List BlockInformation} :
    TilesRange pos (bis.map unnumbered) stop ↔ TilesRange pos bis stop := by
  induction bis generalizing pos with
  | nil => rfl
  | cons bi bis ih =>
    change _ ∧ _ ∧ TilesRange _ (bis.map unnumbered) stop ↔ _
    rw [ih]
    rfl

/-- The records of pieces that tile a content. -/
theorem tilesRange_of_tiles {es : List Entry} {pos : ℕ} {c : Bytes}
    (h : Overlay.Tiles pos (es.map fun x => (x.fpos, x.data)) c) :
    TilesRange pos (es.map fun x => unnumbered (x.record C)) (pos + c.length) := by
  induction es generalizing pos c with
  | nil =>
    cases h
    rfl
  | cons x es ih =>
    rw [List.map_cons] at h
    generalize hp : (x.fpos, x.data) = p at h
    cases h with
    | cons _ d hd rest =>
      cases hp
      have hrecord : x.record C = blockRecord C x.aid x.apos x.fpos x.data := if_neg hd
      rw [List.map_cons, hrecord, List.length_append, ← Nat.add_assoc]
      exact ⟨rfl, List.length_pos_of_ne_nil hd, ih rest⟩

/-- Whatever the run added to the file-information store is saved: the blocks under the same hash
tile the file, and all their assemblies have keys. -/
def AddedSaved (s : Session cfg) (ofis : List (Option FileInformation)) : Prop :=
  ∀ fhash fi, CoqStore.find s.cache.finfostore fhash = some fi →
    (∃ fi', some fi' ∈ ofis ∧ fi'.fhash = fhash) →
    TilesRange 0 (CoqFBlockStore.blocks s.cache.fblockstore fhash) fi.fsize ∧
      ∀ bi ∈ CoqFBlockStore.blocks s.cache.fblockstore fhash,
        (CoqStore.find s.cache.keystore bi.blockaid).isSome = true

/-- A file that is backed up is read completely, and has no blocks yet. -/
def SavesNew (C : Crypto) (s : Session cfg) (f : SourceFile) : Prop :=
  ∀ fi, backedUp C s f = some fi →
    ReadsFull f ∧ CoqFBlockStore.blocks s.cache.fblockstore fi.fhash = []

/-- The blocks of the files backed up since `s₀` tile them. -/
structure Tiled (C : Crypto) (s₀ s : Session cfg) (L : List Entry)
    (past : List (SourceFile × Option FileInformation)) : Prop where
  ledger : Ledger C (writeSide s₀) (writeSide s) L
  nonempty : ∀ x ∈ L, x.data ≠ []
  tiles : ∀ fhash fi, CoqStore.find s.cache.finfostore fhash = some fi →
    (∃ p ∈ past, ∃ fi', p.2 = some fi' ∧ fi'.fhash = fhash) →
    CoqFBlockStore.blocks s₀.cache.fblockstore fhash = [] ∧
      TilesRange 0 (CoqFBlockStore.blocks s.cache.fblockstore fhash) fi.fsize

/-- The names that are backed up, after one more file. -/
theorem exists_backedUp_concat {past : List (SourceFile × Option FileInformation)} {f : SourceFile}
    {o : Option FileInformation} {fhash : Bytes} :
    (∃ p ∈ past ++ [(f, o)], ∃ fi, p.2 = some fi ∧ fi.fhash = fhash) ↔
      (∃ p ∈ past, ∃ fi, p.2 = some fi ∧ fi.fhash = fhash) ∨ ∃ fi, o = some fi ∧ fi.fhash = fhash := by
  simp only [List.mem_append, List.mem_singleton, or_and_right, exists_or, exists_eq_left]

/-- **Every backup of a new file tiles it.** -/
theorem tiled_preserves (s₀ : Session cfg) :
    Preserves C H (SavesNew C) (fun s L past => Tiled C s₀ s L past) := by
  intro s s' f es L past hready hsaves hback h
  have hledger := hback.trace.ledger h.ledger
  -- the blocks under a name are those that were there and those that are recorded now
  have hblocks : ∀ fhash, (CoqFBlockStore.blocks s'.cache.fblockstore fhash).map unnumbered =
      (CoqFBlockStore.blocks s.cache.fblockstore fhash).map unnumbered ++ recordsOf C es fhash :=
    hback.trace.ledger (ledger_refl _)
  cases hsome : backedUp C s f with
  | none =>
    obtain ⟨rfl, hinfos⟩ := hback.of_none hsome
    refine ⟨hledger, by simpa using h.nonempty, fun fhash fi hfind hadded => ?_⟩
    have hold := (exists_backedUp_concat.mp hadded).resolve_right (by simp)
    rw [hinfos] at hfind
    obtain ⟨hstart, htiles⟩ := h.tiles fhash fi hfind hold
    have hsame := hblocks fhash
    rw [recordsOf_eq_nil (by simp), List.append_nil] at hsame
    rw [← tilesRange_unnumbered, hsame, tilesRange_unnumbered]
    exact ⟨hstart, htiles⟩
  | some fi₁ =>
    obtain ⟨hnames, hpieces, hinfos⟩ := hback.of_some hsome
    obtain ⟨hfull, hnone⟩ := hsaves fi₁ hsome
    have htiles₁ : Overlay.Tiles 0 (es.map fun x => (x.fpos, x.data)) f.content :=
      hpieces ▸ readPieces_tiles_zero hfull
    refine ⟨hledger, fun x hx => ?_, fun fhash fi hfind hadded => ?_⟩
    · rcases List.mem_append.mp hx with hx | hx
      · exact h.nonempty x hx
      · exact htiles₁.ne_nil _ (List.mem_map_of_mem hx)
    · rw [hinfos, CoqFInfoStore.add, CoqStore.find_add] at hfind
      have hsame := hblocks fhash
      rw [← tilesRange_unnumbered, hsame]
      by_cases heq : fhash = fi₁.fhash
      · rw [if_pos heq, Option.some.injEq] at hfind
        subst heq
        subst hfind
        have hlen : fi₁.fsize = 0 + f.content.length := by
          rw [(backedUp_eq hsome).2.1, Nat.zero_add]
        rw [hnone, List.map_nil, List.nil_append, recordsOf_eq_map hnames, hlen]
        refine ⟨?_, tilesRange_of_tiles htiles₁⟩
        have hpre := h.ledger fi₁.fhash
        change (CoqFBlockStore.blocks s.cache.fblockstore fi₁.fhash).map unnumbered =
          (CoqFBlockStore.blocks s₀.cache.fblockstore fi₁.fhash).map unnumbered ++ _ at hpre
        rw [hnone, List.map_nil, eq_comm, List.append_eq_nil_iff, List.map_eq_nil_iff] at hpre
        exact hpre.1
      · rw [if_neg heq] at hfind
        have hold := (exists_backedUp_concat.mp hadded).resolve_right (by simpa using Ne.symm heq)
        rw [recordsOf_eq_nil fun x hx hname => heq (hname.symm.trans (hnames x hx)),
          List.append_nil, tilesRange_unnumbered]
        exact h.tiles fhash fi hfind hold

/-- Closing records no block. -/
theorem Tiled.close {s₀ s : Session cfg} {L : List Entry}
    {past : List (SourceFile × Option FileInformation)} (h : Tiled C s₀ s L past) :
    Tiled C s₀ (s.close C H) L past := by
  obtain ⟨hinfos, hblocks⟩ := close_keeps (C := C) (H := H) s
  refine ⟨fun fname => (hblocks fname).trans (h.ledger fname), h.nonempty,
    fun fhash fi hfind hadded => ?_⟩
  rw [hinfos] at hfind
  rw [← tilesRange_unnumbered, hblocks, tilesRange_unnumbered]
  exact h.tiles fhash fi hfind hadded

/-- **Deduplication hides no unsaved data** in a backup run, ended by `close`, in which no assembly
fails, every file that is backed up is read completely, and none is backed up again when it has
blocks. -/
theorem backupRun_addedSaved (hC : C.HexLawful) (H : Host) (cfg : CoqConfiguration)
    (nEnvs depth : ℕ) (hdepth : 1 ≤ depth) (keys₀ : CoqKeyStore) (fblocks₀ : CoqFBlockStore)
    (finfos₀ : CoqFInfoStore) (w₀ : World) (files : List SourceFile) :
    let s₀ := Session.init cfg nEnvs depth keys₀ fblocks₀ finfos₀ w₀
    ∃ s ofis, s₀.backupRun C H files = .ok (s, ofis) ∧
      (MeetsAll C H (SavesNew C) s₀ files → failedAids s.world.clog = [] →
        AddedSaved s ofis) := by
  intro s₀
  obtain ⟨s, es, ofis, hrun, hlen, htrace, hcurrent, -, hinv⟩ := backupRun_trace (H := H) hC
    (readyToBackup_init hdepth keys₀ fblocks₀ finfos₀ w₀) files
  refine ⟨s, ofis, hrun, fun hmeets hfailed fhash fi hfind hadded => ?_⟩
  have htiled := hinv _ _ (tiled_preserves s₀) (fun _ _ _ h => h.close) hmeets
    ⟨ledger_refl _, by simp, by simp⟩
  have hpast : ∃ p ∈ files.zip ofis, ∃ fi', p.2 = some fi' ∧ fi'.fhash = fhash := by
    obtain ⟨fi', hmem, hhash⟩ := hadded
    obtain ⟨i, hi, hget⟩ := List.getElem_of_mem hmem
    have hi' : i < files.length := hlen ▸ hi
    exact ⟨(files[i], ofis[i]), List.mem_of_getElem (i := i) (h := by simp [hi, hi'])
      (by simp), fi', hget, hhash⟩
  obtain ⟨hempty, htiles⟩ := htiled.tiles fhash fi hfind hpast
  refine ⟨htiles, fun bi hbi => ?_⟩
  have hledger := htiled.ledger fhash
  change (CoqFBlockStore.blocks s.cache.fblockstore fhash).map unnumbered =
    (CoqFBlockStore.blocks s₀.cache.fblockstore fhash).map unnumbered ++ _ at hledger
  have hmem := List.mem_map_of_mem (f := unnumbered) hbi
  rw [hledger, hempty, List.map_nil, List.nil_append, mem_recordsOf] at hmem
  obtain ⟨x, hx, -, hrecord⟩ := hmem
  have hd := htiled.nonempty x hx
  have haid : bi.blockaid = x.aid := by
    rw [Entry.record, if_neg hd] at hrecord
    exact (congrArg BlockInformation.blockaid hrecord).symm
  have hacc := htrace.accounted (accounted_start (C := C) (H := H) rfl)
  rw [haid]
  rcases hacc.status x hx hd with ⟨a, ha, -⟩ | hkey | hfail
  · rw [hcurrent] at ha
    cases ha
  · exact hkey
  · change x.aid ∈ failedAids s.world.clog at hfail
    rw [hfailed] at hfail
    cases hfail

/-- A file of one byte is backed up, and everything works. -/
theorem backupRun_addedSaved_simple :
    let H := numberedHost fun _ _ => allWorks
    let f := plainFile (ascii "f") [1] (by decide)
    ∃ s ofis, (Session.init config16 1 1 ∅ ∅ ∅ emptyWorld).backupRun simple H [f] =
      .ok (s, ofis) ∧ AddedSaved s ofis := by
  intro H f
  set s₀ := Session.init config16 1 1 ∅ ∅ ∅ emptyWorld with hs₀
  obtain ⟨s, ofis, hrun, hsaved⟩ := backupRun_addedSaved simple_lawful.hex H config16 1 1
    (Nat.le_refl 1) ∅ ∅ ∅ emptyWorld [f]
  refine ⟨s, ofis, hrun, hsaved ⟨fun fi _ => ⟨readsFull_plainFile _ _ _, rfl⟩,
    fun _ _ _ => trivial⟩ ?_⟩
  obtain ⟨s', es, ofis', hrun', -, htrace, -, hnum, -⟩ := backupRun_trace (H := H)
    simple_lawful.hex (readyToBackup_init (Nat.le_refl 1) ∅ ∅ ∅
      emptyWorld) [f]
  cases hrun.symm.trans hrun'
  have hpieces : (readPieces f f.content.length 0).length ≤ 1 := length_readPieces_le (by decide)
  have hle : s.world.nassembly ≤ 18446744073709551616 := by
    have hsum : s.world.nassembly ≤ 0 + 2 * ((readPieces f f.content.length 0).length + 0) := hnum
    omega
  have hfav := favourable_numbered hle
  exact (htrace.archived hfav (accounted_start rfl) (archived_start hfav rfl)
    (Nat.le_refl _)).unfailed

/-- Of a file of one byte `fread` returns nothing: there is an entry for it, and its only block is
empty. -/
theorem backupRun_counterexample :
    let H := numberedHost fun _ _ => allWorks
    let f := { plainFile (ascii "f") [1] (by decide) with fread := fun _ => 0 }
    ∃ s fi, (Session.init config16 1 1 ∅ ∅ ∅ emptyWorld).backupRun simple H [f] =
        .ok (s, [some fi]) ∧
      CoqStore.find s.cache.finfostore fi.fhash = some fi ∧ fi.fsize = 1 ∧
      (CoqFBlockStore.blocks s.cache.fblockstore fi.fhash).map (·.blocksize) = [0] ∧
      ¬ AddedSaved s [some fi] := by
  intro H f
  set s₀ := Session.init config16 1 1 ∅ ∅ ∅ emptyWorld with hs₀
  obtain ⟨s, es, hfile, -, hback⟩ := fileBackup_trace (H := H) simple_lawful.hex
    (readyToBackup_init (Nat.le_refl 1) ∅ ∅ ∅ emptyWorld) f
  obtain ⟨fi, hsome⟩ : ∃ fi, backedUp simple s₀ f = some fi := ⟨_, rfl⟩
  rw [hsome] at hfile
  obtain ⟨hnames, hpieces, hinfos⟩ := hback.of_some hsome
  obtain ⟨hkeep, hblocks⟩ := close_keeps (C := simple) (H := H) s
  -- what was read
  have hread : readPieces f f.content.length 0 = [(0, [])] := by
    rw [readPieces, if_pos (by decide), readPieces, if_neg (by decide)]
    rfl
  have hsizes : (CoqFBlockStore.blocks (s.close simple H).cache.fblockstore fi.fhash).map
      (·.blocksize) = [0] := by
    rw [hread] at hpieces
    obtain ⟨x, rfl, hx⟩ := List.map_eq_singleton_iff.mp hpieces
    have hd : x.data = [] := congrArg Prod.snd hx
    have hrecords : (CoqFBlockStore.blocks (s.close simple H).cache.fblockstore fi.fhash).map
        unnumbered = [unnumbered (x.record simple)] := by
      have hledger := hback.trace.ledger (ledger_refl _) fi.fhash
      rw [hblocks]
      exact hledger.trans (by rw [List.nil_append, recordsOf_eq_map hnames]; rfl)
    have hmap := congrArg (List.map (·.blocksize)) hrecords
    rw [List.map_map] at hmap
    apply hmap.trans
    rw [Entry.record, if_pos hd]
    rfl
  have hfind : CoqStore.find (s.close simple H).cache.finfostore fi.fhash = some fi := by
    rw [hkeep, hinfos, CoqFInfoStore.add, CoqStore.find_add, if_pos rfl]
  have hsize : fi.fsize = 1 := (backedUp_eq hsome).2.1
  refine ⟨s.close simple H, fi, ?_, hfind, hsize, hsizes, fun hsaved => ?_⟩
  · unfold Session.backupRun Session.backupAll
    rw [hfile]
    rfl
  · obtain ⟨htiles, -⟩ := hsaved fi.fhash fi hfind ⟨fi, List.mem_singleton_self _, rfl⟩
    obtain ⟨bi, hbi, hzero⟩ := List.map_eq_singleton_iff.mp hsizes
    rw [hbi] at htiles
    exact absurd htiles.2.1 (by omega)

end Elykseer.Analysis
