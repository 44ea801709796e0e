import Elykseer.Analysis.ReferenceCrypto
import Elykseer.Foundation.NextFit

/-!
# Where blocks are placed

A run of `backup` calls places its blocks next-fit: the bins are the assemblies, each
offering the logical positions `[headerLen, dataEnd)` (`backup_place`, `backups_place`).
The assembly that is there after any run still holds every block placed in it, so
nothing is lost until it is finalised (`backups_nextFit`).
-/

set_option autoImplicit false

namespace Elykseer.Analysis

open Elykseer.Model Elykseer.Foundation
open CoqEnvironmentWritable (BackupCall)
open NextFit (Slot place placeAll placed)

variable {C : Crypto} {H : Host} {cfg : CoqConfiguration}

/-- An assembly whose next block goes to a slot: the bin is the number of its draw. -/
structure AtSlot (C : Crypto) (H : Host) (a : CoqAssemblyPlainWritable cfg) (w : World)
    (s : Slot) : Prop where
  fits : Fits a
  aid_eq : a.aid = aidOf C H cfg s.bin
  apos_eq : a.apos = s.pos
  nassembly_eq : w.nassembly = s.bin + 1

/-- A new assembly is at a slot of its own. -/
theorem atSlot_newAssembly (w : World) :
    AtSlot C H (newAssembly C H cfg w.nassembly) { w with nassembly := w.nassembly + 1 }
      ⟨w.nassembly, headerLen cfg.nchunks⟩ :=
  ⟨fits_newAssembly _, rfl, rfl, rfl⟩

/-- The block that is returned for a placed call; none for a refused one. -/
def recordAt (C : Crypto) (H : Host) (cfg : CoqConfiguration) :
    Option Slot → BackupCall → RelFnameFblocks
  | none, _ => []
  | some s, call =>
    [(call.fname, blockRecord C (aidOf C H cfg s.bin) s.pos call.fpos call.b.bytes)]

/-- **One call places its block next-fit**, and the blocks of the assembly stay. -/
theorem backup_place {e : CoqEnvironmentWritable cfg} {a : CoqAssemblyPlainWritable cfg} {w : World}
    {s : Slot} (ha : e.assembly = some a) (hs : AtSlot C H a w s) (call : BackupCall)
    (hne : call.b.bytes ≠ []) :
    let r := place (headerLen cfg.nchunks) (dataEnd cfg.nchunks) s call.b.len
    ∃ e' w' kis a', e.backup C H w call.fname call.fpos call.b call.b.len =
        .ok (e', w', recordAt C H cfg r.1 call, kis) ∧
      e'.assembly = some a' ∧ AtSlot C H a' w' r.2 ∧
      (∀ slot, r.1 = some slot → slot.bin = r.2.bin ∧ slot.pos + call.b.len = r.2.pos ∧
        Holds cfg.nchunks a'.buffer.bytes slot.pos call.b.bytes) ∧
      (r.2.bin = s.bin → s.pos ≤ r.2.pos ∧ ∀ pos d, pos + d.length ≤ s.pos →
        Holds cfg.nchunks a.buffer.bytes pos d → Holds cfg.nchunks a'.buffer.bytes pos d) := by
  intro r
  have hlen : call.b.len = call.b.bytes.length := rfl
  obtain ⟨e', w', fbs, kis, hback, hstep⟩ := backup_step (C := C) (H := H)
    (fun a' ha' => by cases ha.symm.trans ha'; exact hs.fits) w call.fname call.fpos call.b
  obtain ⟨hfit, haid, hapos, hnum⟩ := hs
  cases hstep with
  | idle h => cases ha.symm.trans h
  | blank a₁ h hb => exact absurd hb hne
  | fits a₁ a' h hb hroom happ =>
    cases ha.symm.trans h
    have hr : r = (some s, ⟨s.bin, s.pos + call.b.len⟩) := NextFit.place_of_fit (hapos ▸ hroom)
    rw [hr]
    refine ⟨⟨some a', e.nFailed⟩, w, [], a', ?_, rfl, ⟨hfit.appended happ hroom, happ.aid_eq.trans haid,
      happ.apos_eq.trans (by rw [hapos, hlen]), hnum⟩, ?_, fun _ => ⟨Nat.le_add_right _ _, ?_⟩⟩
    · rw [hback, recordAt, haid, hapos]
    · rintro slot hslot
      cases hslot
      exact ⟨rfl, rfl, hapos ▸ holds_appended hfit happ hroom⟩
    · intro pos d hpos hd
      exact hd.appended (hapos ▸ hpos) happ
  | rolled a₁ h hb hfull e₁ w₁ okey hfin a' hroom happ =>
    cases ha.symm.trans h
    have hr : r = (some ⟨s.bin + 1, headerLen cfg.nchunks⟩,
        ⟨s.bin + 1, headerLen cfg.nchunks + call.b.len⟩) :=
      NextFit.place_of_new (by omega) hroom
    have hfit' : Fits (newAssembly C H cfg w.nassembly) := fits_newAssembly w.nassembly
    rw [hr]
    refine ⟨⟨some a', e₁.nFailed⟩, { w₁ with nassembly := w.nassembly + 1 }, okey.toList, a', ?_,
      rfl, ⟨hfit'.appended happ hroom, ?_, ?_, ?_⟩,
      ?_, fun h => ?_⟩
    · rw [hback, recordAt, hnum]
    · rw [happ.aid_eq, hnum]
      rfl
    · rw [happ.apos_eq, hlen]
      rfl
    · exact congrArg (· + 1) hnum
    · rintro slot hslot
      cases hslot
      exact ⟨rfl, rfl, holds_appended hfit' happ hroom⟩
    · exact absurd h (by dsimp only; omega)
  | refused a₁ h hb hfull e₁ w₁ okey hfin hbig =>
    cases ha.symm.trans h
    have hr : r = (none, ⟨s.bin + 1, headerLen cfg.nchunks⟩) :=
      NextFit.place_of_none (by omega) (by omega)
    rw [hr]
    refine ⟨⟨some (newAssembly C H cfg w.nassembly), e₁.nFailed⟩, _, _, _, hback, rfl,
      ⟨fits_newAssembly _, ?_, rfl, ?_⟩, ?_, fun h => ?_⟩
    · rw [aid_newAssembly, hnum]
    · exact congrArg (· + 1) hnum
    · rintro slot hslot
      cases hslot
    · exact absurd h (by dsimp only; omega)

/-- The slot of an assembly is within the data area. -/
theorem AtSlot.within {a : CoqAssemblyPlainWritable cfg} {w : World} {s : Slot}
    (h : AtSlot C H a w s) : NextFit.Within (headerLen cfg.nchunks) (dataEnd cfg.nchunks) s :=
  ⟨h.apos_eq ▸ h.fits.header_le, h.apos_eq ▸ h.fits.le_dataEnd⟩

/-- A call takes the next draw exactly if the free space is too short, and is refused exactly if its
block is too long for any assembly. -/
theorem backup_next {e : CoqEnvironmentWritable cfg} {a : CoqAssemblyPlainWritable cfg} {w : World}
    {s : Slot} (ha : e.assembly = some a) (hs : AtSlot C H a w s) (call : BackupCall)
    (hne : call.b.bytes ≠ []) :
    ∃ e' w' fbs kis, e.backup C H w call.fname call.fpos call.b call.b.len =
        .ok (e', w', fbs, kis) ∧
      w'.nassembly = (if a.afree < call.b.len then w.nassembly + 1 else w.nassembly) ∧
      (fbs = [] ↔ dataEnd cfg.nchunks - headerLen cfg.nchunks < call.b.len) := by
  obtain ⟨e', w', kis, a', hback, -, hs', -, -⟩ := backup_place ha hs call hne
  obtain ⟨hlo, hhi⟩ := hs.within
  refine ⟨e', w', _, kis, hback, ?_, ?_⟩
  · rw [hs'.nassembly_eq, hs.nassembly_eq, NextFit.bin_place, afree_eq, hs.apos_eq]
    by_cases hfull : dataEnd cfg.nchunks < s.pos + call.b.len
    · rw [if_pos hfull, if_pos (by omega)]
    · rw [if_neg hfull, if_neg (by omega)]
  · have hrecord : ∀ oslot, recordAt C H cfg oslot call = [] ↔ oslot = none := by
      intro oslot
      cases oslot <;> simp [recordAt]
    rw [hrecord, NextFit.place_eq_none_iff hs.within]
    omega

/-- One more call after a run of calls. -/
theorem backups_concat {e e' e'' : CoqEnvironmentWritable cfg} {w w' w'' : World}
    {calls : List BackupCall} {call : BackupCall} {rs : List (RelFnameFblocks × RelAidKeys)}
    {fbs : RelFnameFblocks} {kis : RelAidKeys} (hcalls : e.backups C H w calls = .ok (e', w', rs))
    (hcall : e'.backup C H w' call.fname call.fpos call.b call.b.len = .ok (e'', w'', fbs, kis)) :
    e.backups C H w (calls ++ [call]) = .ok (e'', w'', rs ++ [(fbs, kis)]) := by
  induction calls generalizing e w rs with
  | nil =>
    cases hcalls
    rw [List.nil_append, CoqEnvironmentWritable.backups, hcall]
    rfl
  | cons first calls ih =>
    rw [CoqEnvironmentWritable.backups] at hcalls
    rw [List.cons_append, CoqEnvironmentWritable.backups]
    cases hfirst : e.backup C H w first.fname first.fpos first.b first.b.len with
    | error f =>
      rw [hfirst] at hcalls
      cases hcalls
    | ok r =>
      obtain ⟨e₁, w₁, fbs₁, kis₁⟩ := r
      rw [hfirst] at hcalls
      dsimp only at hcalls ⊢
      cases hrest : e₁.backups C H w₁ calls with
      | error f =>
        rw [hrest] at hcalls
        cases hcalls
      | ok r =>
        obtain ⟨e₂, w₂, rs₂⟩ := r
        rw [hrest] at hcalls
        cases hcalls
        rw [ih hrest]
        rfl

/-- **A run places its blocks next-fit**, and the assembly holds all of its blocks. -/
theorem backups_place {e : CoqEnvironmentWritable cfg} {a : CoqAssemblyPlainWritable cfg} {w : World}
    {s : Slot} (ha : e.assembly = some a) (hs : AtSlot C H a w s) (calls : List BackupCall)
    (hne : ∀ call ∈ calls, call.b.bytes ≠ []) :
    let r := placeAll (headerLen cfg.nchunks) (dataEnd cfg.nchunks) s (calls.map (·.b.len))
    ∃ e' w' rs a', e.backups C H w calls = .ok (e', w', rs) ∧
      rs.map Prod.fst = List.zipWith (recordAt C H cfg) r.1 calls ∧
      e'.assembly = some a' ∧ AtSlot C H a' w' r.2 ∧
      ∀ slot call, (some slot, call) ∈ r.1.zip calls → slot.bin = r.2.bin →
        slot.pos + call.b.len ≤ r.2.pos ∧
        Holds cfg.nchunks a'.buffer.bytes slot.pos call.b.bytes := by
  induction calls using List.reverseRecOn with
  | nil =>
    refine ⟨e, w, [], a, rfl, rfl, ha, hs, fun slot call hmem => ?_⟩
    cases hmem
  | append_singleton calls call ih =>
    obtain ⟨e', w', rs, a', hrun, hrecords, ha', hs', hheld⟩ :=
      ih fun c hc => hne c (List.mem_append_left _ hc)
    intro r
    set slots := placeAll (headerLen cfg.nchunks) (dataEnd cfg.nchunks) s (calls.map (·.b.len))
      with hslots
    set next := place (headerLen cfg.nchunks) (dataEnd cfg.nchunks) slots.2 call.b.len
    have hr : r = (slots.1 ++ [next.1], next.2) := by
      change placeAll _ _ s ((calls ++ [call]).map (·.b.len)) = _
      rw [List.map_append, List.map_singleton, NextFit.placeAll_concat]
    have hlength : slots.1.length = calls.length := by
      rw [hslots, NextFit.length_placeAll, List.length_map]
    obtain ⟨e'', w'', kis, a'', hcall, ha'', hs'', hnew, hold⟩ :=
      backup_place ha' hs' call (hne call (by simp))
    rw [hr]
    refine ⟨e'', w'', _, a'', backups_concat hrun hcall, ?_, ha'', hs'', fun slot c hmem hbin => ?_⟩
    · rw [List.map_append, hrecords, List.map_singleton, List.zipWith_append hlength]
      rfl
    · rw [List.zip_append hlength, List.mem_append] at hmem
      rcases hmem with hmem | hmem
      · -- a block of an earlier call is in the last bin only if that bin was not left
        have hplaced : (slot, c.b.len) ∈ placed (headerLen cfg.nchunks) (dataEnd cfg.nchunks) s
            (calls.map (·.b.len)) := by
          unfold placed
          rw [List.zip_map_right, List.mem_filterMap]
          exact ⟨(some slot, c.b.len), List.mem_map_of_mem hmem, rfl⟩
        have hle := NextFit.placed_bin_le s (calls.map (·.b.len)) _ hplaced
        have hge := NextFit.bin_le_place (headerLen cfg.nchunks) (dataEnd cfg.nchunks) slots.2
          call.b.len
        have hsame : slot.bin = slots.2.bin := Nat.le_antisymm hle (hbin ▸ hge)
        obtain ⟨hpos, hholds⟩ := hheld slot c hmem hsame
        obtain ⟨hmono, hkeep⟩ := hold (hbin.symm.trans hsame)
        exact ⟨Nat.le_trans hpos hmono, hkeep slot.pos c.b.bytes hpos hholds⟩
      · simp only [List.zip_cons_cons, List.zip_nil_right, List.mem_singleton, Prod.mk.injEq] at hmem
        obtain ⟨hslot, rfl⟩ := hmem
        obtain ⟨-, hpos, hholds⟩ := hnew slot hslot.symm
        exact ⟨Nat.le_of_eq hpos, hholds⟩

/-- The blocks that are returned lie at their slots. -/
theorem geometry_records (slots : List (Option Slot)) (calls : List BackupCall) :
    ((List.zipWith (recordAt C H cfg) slots calls).flatten.map Prod.snd).map
        (fun r => (r.blockaid, r.blockapos, r.blocksize)) =
      ((slots.zip (calls.map (·.b.len))).filterMap fun p => p.1.map fun slot => (slot, p.2)).map
        (fun p => (aidOf C H cfg p.1.bin, p.1.pos, p.2)) := by
  induction slots generalizing calls with
  | nil => rfl
  | cons oslot slots ih =>
    cases calls with
    | nil => rfl
    | cons call calls =>
      rw [List.zipWith_cons_cons, List.flatten_cons, List.map_append, List.map_append, ih,
        List.map_cons, List.zip_cons_cons]
      cases oslot <;> rfl

/-- Blocks that do not overlap in their assembly share no physical position. -/
theorem disjoint_positions {p q : Slot × ℕ} (hp : p.1.pos + p.2 ≤ dataEnd cfg.nchunks)
    (hq : q.1.pos + q.2 ≤ dataEnd cfg.nchunks) (hpq : p.1.pos + p.2 ≤ q.1.pos) :
    ∀ i < p.2, ∀ j < q.2,
      idx2apos (p.1.pos + i) cfg.nchunks ≠ idx2apos (q.1.pos + j) cfg.nchunks := by
  intro i hi j hj heq
  have hend := dataEnd_le cfg.nchunks
  have := idx2apos_inj (by omega) (by omega) heq
  omega

/-- Records of disjoint slots in assemblies with different identifiers share no physical position. -/
theorem disjoint_records {rs : List BlockInformation} {blocks : List (Slot × ℕ)}
    (hgeometry : rs.map (fun r => (r.blockaid, r.blockapos, r.blocksize)) =
      blocks.map fun p => (aidOf C H cfg p.1.bin, p.1.pos, p.2))
    (hfits : ∀ p ∈ blocks, p.1.pos + p.2 ≤ dataEnd cfg.nchunks)
    (hdisjoint : blocks.Pairwise fun p q => p.1.bin = q.1.bin → p.1.pos + p.2 ≤ q.1.pos)
    (hdistinct : ∀ p ∈ blocks, ∀ q ∈ blocks,
      aidOf C H cfg p.1.bin = aidOf C H cfg q.1.bin → p.1.bin = q.1.bin) :
    rs.Pairwise fun r r' => r.blockaid = r'.blockaid →
      ∀ i < r.blocksize, ∀ j < r'.blocksize,
        idx2apos (r.blockapos + i) cfg.nchunks ≠ idx2apos (r'.blockapos + j) cfg.nchunks := by
  have hall : blocks.Pairwise fun p q => aidOf C H cfg p.1.bin = aidOf C H cfg q.1.bin →
      ∀ i < p.2, ∀ j < q.2,
        idx2apos (p.1.pos + i) cfg.nchunks ≠ idx2apos (q.1.pos + j) cfg.nchunks := by
    apply hdisjoint.imp_of_mem
    intro p q hp hq hpq haid
    exact disjoint_positions (hfits p hp) (hfits q hq) (hpq (hdistinct p hp q hq haid))
  have hmap := (List.pairwise_map (f := fun p : Slot × ℕ => (aidOf C H cfg p.1.bin, p.1.pos, p.2))
    (R := fun t t' : Bytes × ℕ × ℕ => t.1 = t'.1 → ∀ i < t.2.2, ∀ j < t'.2.2,
      idx2apos (t.2.1 + i) cfg.nchunks ≠ idx2apos (t'.2.1 + j) cfg.nchunks)).mpr hall
  rw [← hgeometry] at hmap
  exact List.pairwise_map.mp hmap

/-- **Blocks are placed next-fit.**  From a new assembly on, any sequence of `backup` calls with
non-empty buffers returns the blocks at their next-fit slots; the slots of one assembly lie back to
back inside the data area.  The assembly that is there holds every byte of its blocks, and is
replaced by the next call exactly if the free space is too short; a block is refused exactly if it
is too long for any assembly.  No two blocks of an assembly share a physical position, and none
reaches the tag. -/
theorem backups_nextFit (C : Crypto) (H : Host) (e₀ : CoqEnvironmentWritable cfg) (w₀ : World)
    (calls : List BackupCall) (hne : ∀ call ∈ calls, call.b.bytes ≠ []) :
    let lo := headerLen cfg.nchunks
    let hi := (chunksize - tagLen) * cfg.nchunks.u
    let lens := calls.map (·.b.len)
    let slots := placeAll lo hi ⟨w₀.nassembly, lo⟩ lens
    let blocks := placed lo hi ⟨w₀.nassembly, lo⟩ lens
    let r₀ := e₀.recreateAssembly C H w₀
    ∃ e w rs a, r₀.1.backups C H r₀.2 calls = .ok (e, w, rs) ∧ e.assembly = some a ∧
      -- the blocks, next-fit and back to back
      rs.map Prod.fst = List.zipWith (recordAt C H cfg) slots.1 calls ∧
      (∀ bin, NextFit.Contiguous lo (NextFit.inBin bin blocks)) ∧
      (∀ p ∈ blocks, lo ≤ p.1.pos ∧ p.1.pos + p.2 ≤ hi) ∧
      -- the assembly that is there holds its blocks
      a.aid = aidOf C H cfg slots.2.bin ∧ w.nassembly = slots.2.bin + 1 ∧
      a.afree = (hi - slots.2.pos : ℕ) ∧
      (∀ slot call, (some slot, call) ∈ slots.1.zip calls → slot.bin = slots.2.bin →
        ∀ i < call.b.len,
          a.buffer.bytes[idx2apos (slot.pos + i) cfg.nchunks]? = call.b.bytes[i]?) ∧
      -- one more call
      (∀ call : BackupCall, call.b.bytes ≠ [] → ∃ e' w' fbs kis,
        e.backup C H w call.fname call.fpos call.b call.b.len = .ok (e', w', fbs, kis) ∧
        w'.nassembly = (if a.afree < call.b.len then w.nassembly + 1 else w.nassembly) ∧
        (fbs = [] ↔ hi - lo < call.b.len)) ∧
      -- physical positions
      (Set.InjOn (aidOf C H cfg) (Set.Ico w₀.nassembly w.nassembly) →
        ((rs.map Prod.fst).flatten.map Prod.snd).Pairwise fun r r' => r.blockaid = r'.blockaid →
          ∀ i < r.blocksize, ∀ j < r'.blocksize,
            idx2apos (r.blockapos + i) cfg.nchunks ≠ idx2apos (r'.blockapos + j) cfg.nchunks) ∧
      ∀ r ∈ (rs.map Prod.fst).flatten.map Prod.snd, ∀ i < r.blocksize,
        idx2apos (r.blockapos + i) cfg.nchunks < assemblysize cfg.nchunks - tagLen := by
  intro lo hi lens slots blocks r₀
  have hlohi : lo ≤ hi := by
    have h1 := headerLen_le cfg.nchunks
    have h2 := lt_dataEnd cfg.nchunks
    change headerLen cfg.nchunks ≤ dataEnd cfg.nchunks
    omega
  have hwithin : NextFit.Within lo hi ⟨w₀.nassembly, lo⟩ := ⟨Nat.le_refl _, hlohi⟩
  obtain ⟨e, w, rs, a, hrun, hrecords, ha, hs, hheld⟩ := backups_place (C := C) (H := H)
    (e := r₀.1) (w := r₀.2) rfl (atSlot_newAssembly w₀) calls hne
  have hbounds := NextFit.bounds_placeAll hlohi hwithin lens
  have hafree : a.afree = (hi - slots.2.pos : ℕ) := by rw [afree_eq, hs.apos_eq]; rfl
  have hgeometry : ((rs.map Prod.fst).flatten.map Prod.snd).map
      (fun r => (r.blockaid, r.blockapos, r.blocksize)) =
      blocks.map fun p => (aidOf C H cfg p.1.bin, p.1.pos, p.2) := by
    rw [hrecords]
    exact geometry_records slots.1 calls
  refine ⟨e, w, rs, a, hrun, ha, hrecords, fun bin => ?_, fun p hp => ?_, hs.aid_eq,
    hs.nassembly_eq, hafree, fun slot call hmem hbin i hi => ?_, fun call hcall => ?_,
    fun hdistinct => ?_, fun r hr i hi => ?_⟩
  · by_cases hbin : w₀.nassembly ≤ bin
    · have := NextFit.contiguous_placeAll hlohi hwithin lens bin hbin
      simpa using this
    · rw [NextFit.inBin_of_lt hlohi hwithin lens (Nat.lt_of_not_le hbin)]
      trivial
  · exact ⟨(hbounds p hp).1, (hbounds p hp).2.1⟩
  · exact (hheld slot call hmem hbin).2.cells i hi
  · exact backup_next ha hs call hcall
  · have hlast : w.nassembly = slots.2.bin + 1 := hs.nassembly_eq
    have hbin_lt : ∀ p ∈ blocks, p.1.bin ∈ Set.Ico w₀.nassembly w.nassembly := by
      intro p hp
      have hle : p.1.bin ≤ slots.2.bin := NextFit.placed_bin_le _ lens p hp
      exact ⟨(hbounds p hp).2.2, by omega⟩
    exact disjoint_records hgeometry (fun p hp => (hbounds p hp).2.1)
      (NextFit.pairwise_placeAll hlohi hwithin lens)
      (fun p hp q hq haid => hdistinct (hbin_lt p hp) (hbin_lt q hq) haid)
  · have hmem := List.mem_map_of_mem (f := fun r : BlockInformation =>
      (r.blockaid, r.blockapos, r.blocksize)) hr
    rw [hgeometry, List.mem_map] at hmem
    obtain ⟨p, hp, heq⟩ := hmem
    simp only [Prod.mk.injEq] at heq
    obtain ⟨-, hpos, hsize⟩ := heq
    have hle : p.1.pos + p.2 ≤ dataEnd cfg.nchunks := (hbounds p hp).2.1
    exact idx2apos_lt_of_lt_dataEnd (by omega)

/-- Two blocks back to back, one that starts a new assembly, and one that is refused. -/
theorem backups_nextFit_simple :
    let H := numberedHost fun _ _ => allWorks
    let r₀ := (CoqEnvironmentWritable.init config16).recreateAssembly simple H emptyWorld
    let big : ℕ → CoqBuffer .plain := fun n => CoqBuffer.ofBytes (List.replicate n 0)
    ∃ e w rs, r₀.1.backups simple H r₀.2 [⟨ascii "f", 0, CoqBuffer.ofBytes [1, 2, 3]⟩,
        ⟨ascii "f", 3, CoqBuffer.ofBytes [4, 5]⟩, ⟨ascii "g", 0, big 4194048⟩,
        ⟨ascii "h", 0, big 4194049⟩] = .ok (e, w, rs) ∧
      rs.map Prod.fst =
        [[(ascii "f", blockRecord simple (aidOf simple H config16 0) 0 0 [1, 2, 3])],
          [(ascii "f", blockRecord simple (aidOf simple H config16 0) 3 3 [4, 5])],
          [(ascii "g", blockRecord simple (aidOf simple H config16 1) 0 0
            (List.replicate 4194048 0))], []] := by
  intro H r₀ big
  have hbytes : ∀ n, n < 2147483648 → (big n).bytes = List.replicate n 0 := fun n hn =>
    CoqBuffer.bytes_ofBytes (by rw [List.length_replicate]; exact hn)
  have hlen : ∀ n, n < 2147483648 → (big n).len = n := fun n hn => by
    rw [CoqBuffer.len, hbytes n hn, List.length_replicate]
  set calls : List BackupCall := [⟨ascii "f", 0, CoqBuffer.ofBytes [1, 2, 3]⟩,
    ⟨ascii "f", 3, CoqBuffer.ofBytes [4, 5]⟩, ⟨ascii "g", 0, big 4194048⟩,
    ⟨ascii "h", 0, big 4194049⟩] with hcalls
  have hlens : calls.map (·.b.len) = [3, 2, 4194048, 4194049] := by
    simp only [hcalls, List.map_cons, List.map_nil, hlen 4194048 (by decide),
      hlen 4194049 (by decide)]
    rfl
  have hne : ∀ call ∈ calls, call.b.bytes ≠ [] := by
    intro call hcall hnil
    have hmem : call.b.len ∈ calls.map (·.b.len) := List.mem_map_of_mem hcall
    rw [hlens, CoqBuffer.len, hnil] at hmem
    exact absurd hmem (by decide)
  obtain ⟨e, w, rs, a, hrun, -, hrecords, -⟩ := backups_nextFit simple H
    (CoqEnvironmentWritable.init config16) emptyWorld calls hne
  have hslots : (placeAll (headerLen config16.nchunks)
      ((chunksize - tagLen) * config16.nchunks.u) ⟨0, headerLen config16.nchunks⟩
      [3, 2, 4194048, 4194049]).1 = [some ⟨0, 0⟩, some ⟨0, 3⟩, some ⟨1, 0⟩, none] := by decide
  refine ⟨e, w, rs, hrun, hrecords.trans ?_⟩
  rw [hlens]
  change List.zipWith (recordAt simple H config16) (placeAll _ _ ⟨0, _⟩ _).1 _ = _
  rw [hslots, hcalls]
  simp only [List.zipWith_cons_cons, List.zipWith_nil_left, recordAt, hbytes 4194048 (by decide)]
  rfl

end Elykseer.Analysis
