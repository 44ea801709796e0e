import Elykseer.Analysis.RoundTrip

/-!
# A path that is backed up again

The blocks of a new version are appended to those of the versions before, and a restore
writes them all.  So the newest version is what is restored exactly if none of the
versions before is longer: `backupRun_newest_iff`.
-/

set_option autoImplicit false

namespace Elykseer.Analysis

open Elykseer.Model Elykseer.Foundation

variable {C : Crypto} {H : Host} {cfg : CoqConfiguration}

/-- A file is refused, or restored with the content `c`. -/
def RefusedOr (c : Bytes) (out : Path → Option Bytes) (fp : Path) (ok : Bool) : Prop :=
  (ok = false ∧ out fp = none) ∨ (ok = true ∧ out fp = some c)

/-- The checksum tells the contents of the files apart. -/
theorem checksum_injOn (hC : C.HexLawful) {files : List SourceFile}
    (hcontents : C.NoCollision {m | ∃ f ∈ files, m = f.content}) {p u v : Bytes}
    (hu : u ∈ versions p files) (hv : v ∈ versions p files) (h : checksum C u = checksum C v) :
    u = v := by
  have hmem : ∀ w ∈ versions p files, w ∈ {m | ∃ f ∈ files, m = f.content} := by
    intro w hw
    obtain ⟨f, hf, -, rfl⟩ := mem_versions.mp hw
    exact ⟨f, hf, rfl⟩
  exact hcontents (hmem u hu) (hmem v hv) (hC.toHex256_injective h)

/-- A saved path is restored to its versions, each over the ones before; it is refused if it has no
blocks. -/
theorem Saved.restorePath (hC : C.HexLawful) {s : Session cfg} {p : Bytes} {vs : List Bytes}
    {mine : List Entry} (h : Saved C s p vs mine) (H : Host) {nEnvs depth : ℕ} (hn : 1 ≤ nEnvs)
    (hd : 1 ≤ depth) (out : Path → Option Bytes) (fp : Path) (hnew : out fp = none) :
    ∃ s' out' ok, (Session.init cfg nEnvs depth s.cache.keystore s.cache.fblockstore
        s.cache.finfostore s.world).restorePath C H out p (some fp) = .ok (s', out', ok) ∧
      RefusedOr (Overlay.stack vs) out' fp ok ∧ (ok = false → Overlay.stack vs = []) ∧
      (vs = [] → ok = false) := by
  set r := Session.init cfg nEnvs depth s.cache.keystore s.cache.fblockstore s.cache.finfostore
    s.world with hr
  have hblocks : CoqFBlockStore.blocks s.cache.fblockstore (fileHash C p cfg.myId) =
      (CoqStore.find r.cache.fblockstore (fileHash C p cfg.myId)).getD [] := rfl
  unfold Session.restorePath
  cases hfind : CoqStore.find r.cache.fblockstore (fileHash C p cfg.myId) with
  | none =>
    refine ⟨r, out, false, rfl, Or.inl ⟨rfl, hnew⟩, fun _ => ?_, fun _ => rfl⟩
    rw [hfind, Option.getD_none] at hblocks
    have hmine := h.blocks
    rw [hblocks, List.map_nil, eq_comm, List.map_eq_nil_iff] at hmine
    rw [← h.overlay, hmine]
    rfl
  | some fbs =>
    rw [hfind, Option.getD_some] at hblocks
    obtain ⟨s', hfile⟩ := h.restoreFile hC H hn hd hnew
    rw [hblocks, ← hr] at hfile
    refine ⟨s', _, true, hfile, Or.inr ⟨rfl, Function.update_self ..⟩, fun hok => ?_,
      fun hnil => ?_⟩
    · cases hok
    have hnone : CoqStore.find r.cache.fblockstore (fileHash C p cfg.myId) = none := h.absent hnil
    rw [hfind] at hnone
    cases hnone

/-- A saved path is refused or restored to its versions, each over the ones before, and this is the
last one, `c`, exactly if no version is longer. -/
theorem Saved.restorePath_iff (hC : C.HexLawful) {s : Session cfg} {p : Bytes} {vs : List Bytes}
    {mine : List Entry} (h : Saved C s p vs mine) {c : Bytes} (hlast : vs ≠ [] → ∃ us, vs = us ++ [c])
    (H : Host) {nEnvs depth : ℕ} (hn : 1 ≤ nEnvs) (hd : 1 ≤ depth) (out : Path → Option Bytes)
    (fp : Path) (hnew : out fp = none) :
    ∃ s' out' ok, (Session.init cfg nEnvs depth s.cache.keystore s.cache.fblockstore
        s.cache.finfostore s.world).restorePath C H out p (some fp) = .ok (s', out', ok) ∧
      RefusedOr (Overlay.stack vs) out' fp ok ∧
      (RefusedOr c out' fp ok ↔ ∀ v ∈ vs, v.length ≤ c.length) := by
  obtain ⟨s', out', ok, hpath, hstack, hrefused, hempty⟩ := h.restorePath hC H hn hd out fp hnew
  refine ⟨s', out', ok, hpath, hstack, ?_⟩
  rcases hstack with ⟨hok, hnone⟩ | ⟨hok, hsome⟩
  · -- no block was recorded, so all versions are empty
    refine ⟨fun _ => (Overlay.length_stack_le_iff vs c.length).mp ?_, fun _ => Or.inl ⟨hok, hnone⟩⟩
    rw [hrefused hok]
    exact Nat.zero_le _
  · have hne : vs ≠ [] := by
      intro hnil
      rw [hempty hnil] at hok
      cases hok
    obtain ⟨us, rfl⟩ := hlast hne
    have hcontent : RefusedOr c out' fp ok ↔ Overlay.stack (us ++ [c]) = c := by
      simp [RefusedOr, hok, hsome]
    rw [hcontent, Overlay.stack_concat_eq_iff]
    refine ⟨fun hle v hv => ?_, fun hle v hv => hle v (List.mem_append_left _ hv)⟩
    rcases List.mem_append.mp hv with hv | hv
    · exact hle v hv
    · rw [List.mem_singleton.mp hv]

/-- **Re-backup within one session**: when nothing fails, the path `p` whose last version is `c` is
refused or restored to the versions that were backed up, each over the ones before; this is `c` if
and only if none of them is longer than `c`. -/
theorem backupRun_newest_iff (hC : C.Lawful) (H : Host) (cfg : CoqConfiguration)
    (nEnvs depth : ℕ) (hdepth : 1 ≤ depth) (keys₀ : CoqKeyStore) (fblocks₀ : CoqFBlockStore)
    (finfos₀ : CoqFInfoStore) (w₀ : World) (files : List SourceFile)
    (hfiles : FilesWork C cfg files) (hcontents : C.NoCollision {m | ∃ f ∈ files, m = f.content})
    (p c : Bytes) (vs : List Bytes) (hversions : versions p files = vs ++ [c])
    (hnone : CoqStore.find fblocks₀ (fileHash C p cfg.myId) = none) :
    ∃ s ofis, (Session.init cfg nEnvs depth keys₀ fblocks₀ finfos₀ w₀).backupRun C H files =
        .ok (s, ofis) ∧
      (Favourable C H cfg w₀ keys₀ s.world.nassembly → ∀ (H' : Host) nEnvs' depth', 1 ≤ nEnvs' →
        1 ≤ depth' → ∀ out fp, out fp = none →
        ∃ s' out' ok, (Session.init cfg nEnvs' depth' s.cache.keystore s.cache.fblockstore
            s.cache.finfostore s.world).restorePath C H' out p (some fp) = .ok (s', out', ok) ∧
          RefusedOr (Overlay.stack (changedVersions C cfg finfos₀ files p)) out' fp ok ∧
          (RefusedOr c out' fp ok ↔
            ∀ v ∈ changedVersions C cfg finfos₀ files p, v.length ≤ c.length)) := by
  obtain ⟨s, ofis, hrun, -, hsaved⟩ :=
    backupRun_saved hC.hex H nEnvs hdepth keys₀ fblocks₀ finfos₀ w₀ files
  refine ⟨s, ofis, hrun, fun hfav H' nEnvs' depth' hn hd out fp hnew => ?_⟩
  have hc : c ∈ versions p files := by rw [hversions]; simp
  have hp : ∃ g ∈ files, g.name = p := by
    obtain ⟨g, hg, hname, -⟩ := mem_versions.mp hc
    exact ⟨g, hg, hname⟩
  obtain ⟨mine, hmine⟩ := hsaved hfav p (hfiles.backupWorks hC.hex hp) hnone
  refine hmine.restorePath_iff hC.hex (fun hne => ?_) H' hn hd out fp hnew
  unfold changedVersions at hne ⊢
  rw [hversions] at hne ⊢
  refine Versions.changes_eq_concat (fun u hu heq => ?_) hne
  exact checksum_injOn hC.hex hcontents (p := p) (by rw [hversions]; simp [hu]) hc heq

section Simple

/-- Two contents with different first bytes do not collide. -/
theorem noCollision_contents {u v : Bytes} (h : u.getD 0 0 ≠ v.getD 0 0) {files : List SourceFile}
    (hfiles : ∀ f ∈ files, f.content = u ∨ f.content = v) :
    simple.NoCollision {m | ∃ f ∈ files, m = f.content} := by
  rintro m ⟨f, hf, rfl⟩ m' ⟨g, hg, rfl⟩ heq
  rw [sha3_simple, sha3_simple] at heq
  have hhead := (simpleHash_head heq).2 0 (by decide)
  rcases hfiles f hf with hf | hf <;> rcases hfiles g hg with hg | hg <;> rw [hf, hg] at hhead ⊢
  · exact absurd hhead h
  · exact absurd hhead.symm h

/-- Plain files of one name can be backed up. -/
theorem filesWork_plain {name : Bytes} {files : List SourceFile}
    (h : ∀ f ∈ files, ∃ content hlen, f = plainFile name content hlen) :
    FilesWork simple config16 files := by
  refine ⟨fun f hf => ?_, fun f hf => ?_, fun f hf => ?_, ?_⟩
  · obtain ⟨content, hlen, rfl⟩ := h f hf
    rfl
  · obtain ⟨content, hlen, rfl⟩ := h f hf
    rfl
  · obtain ⟨content, hlen, rfl⟩ := h f hf
    exact readsFull_plainFile _ _ _
  · rintro m ⟨f, hf, rfl⟩ m' ⟨g, hg, rfl⟩ -
    obtain ⟨content, hlen, rfl⟩ := h f hf
    obtain ⟨content', hlen', rfl⟩ := h g hg
    rfl

/-- Two small files are backed up with a few draws. -/
theorem nassembly_le_of_small {s : Session config16} {f g : SourceFile}
    (hf : f.content.length ≤ blockSz) (hg : g.content.length ≤ blockSz)
    (hnum : s.world.nassembly ≤ emptyWorld.nassembly +
      2 * ([f, g].map fun f => (readPieces f f.content.length 0).length).sum) :
    s.world.nassembly ≤ 18446744073709551616 := by
  have h1 := length_readPieces_le hf
  have h2 := length_readPieces_le hg
  have hsum : s.world.nassembly ≤ 0 + 2 * ((readPieces f f.content.length 0).length +
    ((readPieces g g.content.length 0).length + 0)) := hnum
  omega

/-- A file grows, and is restored with its new content. -/
theorem backupRun_newest_iff_simple :
    let H := numberedHost fun _ _ => allWorks
    let files := [plainFile (ascii "f") [1] (by decide), plainFile (ascii "f") [2, 3] (by decide)]
    ∃ s ofis s' out ok, (Session.init config16 1 1 ∅ ∅ ∅ emptyWorld).backupRun simple H files =
        .ok (s, ofis) ∧
      (Session.init config16 1 1 s.cache.keystore s.cache.fblockstore s.cache.finfostore
        s.world).restorePath simple H (fun _ => none) (ascii "f") (some [ascii "f"]) =
          .ok (s', out, ok) ∧
      RefusedOr [2, 3] out [ascii "f"] ok := by
  intro H files
  obtain ⟨s, ofis, hrun, hrest⟩ := backupRun_newest_iff simple_lawful H config16 1 1 (Nat.le_refl 1)
    ∅ ∅ ∅ emptyWorld files
    (filesWork_plain (by
      intro f hf
      simp only [files, List.mem_cons, List.not_mem_nil, or_false] at hf
      rcases hf with rfl | rfl <;> exact ⟨_, _, rfl⟩))
    (noCollision_contents (u := [1]) (v := [2, 3]) (by decide) (by simp [files, plainFile]))
    (ascii "f") [2, 3] [[1]] (by decide) (CoqStore.find_empty _)
  obtain ⟨s₁, ofis₁, hrun₁, hnum, -⟩ := backupRun_saved simple_lawful.hex H 1
    (Nat.le_refl 1) ∅ ∅ ∅ emptyWorld files
  cases hrun.symm.trans hrun₁
  have hle := nassembly_le_of_small (by decide) (by decide) hnum
  obtain ⟨s', out, ok, hfile, -, hiff⟩ := hrest (favourable_numbered hle) H 1 1 (Nat.le_refl 1)
    (Nat.le_refl 1) (fun _ => none) [ascii "f"] rfl
  refine ⟨s, ofis, s', out, ok, hrun, hfile, hiff.mpr fun v hv => ?_⟩
  have hmem := Versions.changes_subset _ _ hv
  have hall : ∀ v ∈ versions (ascii "f") files, v.length ≤ 2 := by decide
  exact hall v hmem

/-- A file shrinks, and is restored with the end of its old content. -/
theorem backupRun_newest_counterexample :
    let H := numberedHost fun _ _ => allWorks
    let files := [plainFile (ascii "f") [1, 2] (by decide), plainFile (ascii "f") [3] (by decide)]
    ∃ s ofis s' out, (Session.init config16 1 1 ∅ ∅ ∅ emptyWorld).backupRun simple H files =
        .ok (s, ofis) ∧
      Favourable simple H config16 emptyWorld ∅ s.world.nassembly ∧
      (Session.init config16 1 1 s.cache.keystore s.cache.fblockstore s.cache.finfostore
        s.world).restorePath simple H (fun _ => none) (ascii "f") (some [ascii "f"]) =
          .ok (s', out, true) ∧
      out [ascii "f"] = some [3, 2] ∧ ¬ RefusedOr [3] out [ascii "f"] true := by
  intro H files
  have hplain : ∀ f ∈ files, ∃ content hlen, f = plainFile (ascii "f") content hlen := by
    intro f hf
    simp only [files, List.mem_cons, List.not_mem_nil, or_false] at hf
    rcases hf with rfl | rfl <;> exact ⟨_, _, rfl⟩
  have hcontents : simple.NoCollision {m | ∃ f ∈ files, m = f.content} :=
    noCollision_contents (u := [1, 2]) (v := [3]) (by decide) (by simp [files, plainFile])
  obtain ⟨s, ofis, hrun, hnum, hsaved⟩ := backupRun_saved simple_lawful.hex H 1
    (Nat.le_refl 1) ∅ ∅ ∅ emptyWorld files
  have hfav := favourable_numbered (nassembly_le_of_small (by decide) (by decide) hnum)
  obtain ⟨mine, hmine⟩ := hsaved hfav (ascii "f")
    ((filesWork_plain hplain).backupWorks simple_lawful.hex ⟨_, List.mem_cons_self, rfl⟩)
    (CoqStore.find_empty _)
  -- both versions are backed up
  have hchanged : changedVersions simple config16 ∅ files (ascii "f") = [[1, 2], [3]] := by
    have hversions : versions (ascii "f") files = [[1, 2], [3]] := by decide
    have hne : ¬ (some (checksum simple [1, 2]) = some (checksum simple [3])) := by
      intro heq
      have hmem : ∀ v ∈ [[1, 2], [3]], v ∈ versions (ascii "f") files := by rw [hversions]; simp
      have := checksum_injOn simple_lawful.hex hcontents (hmem [1, 2] (by simp))
        (hmem [3] (by simp)) (Option.some.inj heq)
      exact absurd this (by decide)
    unfold changedVersions
    rw [hversions, knownChecksum, CoqStore.find_empty, Option.map_none, Versions.changes,
      if_neg (by simp), Versions.changes, if_neg hne, Versions.changes]
  rw [hchanged] at hmine
  obtain ⟨s', out, ok, hfile, hstack, hiff⟩ := hmine.restorePath_iff simple_lawful.hex
    (fun _ => ⟨[[1, 2]], rfl⟩) H (Nat.le_refl 1) (Nat.le_refl 1) (fun _ => none)
    [ascii "f"] rfl
  have hnot : ¬ RefusedOr [3] out [ascii "f"] ok := by
    intro hrefused
    exact absurd (hiff.mp hrefused [1, 2] (by simp)) (by decide)
  rcases hstack with hrefused | ⟨rfl, hcontent⟩
  · exact absurd (Or.inl hrefused) hnot
  · exact ⟨s, ofis, s', out, hrun, hfav, hfile, hcontent, hnot⟩

end Simple

end Elykseer.Analysis
