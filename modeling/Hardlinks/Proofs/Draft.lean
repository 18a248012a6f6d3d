-- SUMMARY: Writing a draft makes a file with the manifest of its plan, or nothing that has a name.
import Hardlinks.Draft
import Hardlinks.Proofs.FileSystem.Nodes
import Hardlinks.Proofs.FileSystem.Rewriting
import Hardlinks.Proofs.LinkPlan

/-!
# Drafts

A draft is made as an empty file and filled then, which comes to the same as making it with all its
bytes (`createFile_of_filled`). If a later step fails it is removed, and of the file only the node
is left, which nothing leads to (`discard_of_createFile`). So writing a draft ends in one of three
ways (`writes_write`).
-/

namespace Hardlinks.Draft

open FileSystem

variable {cfg : CheckedConfig} {systemTemp : Path} {tags : List (List UInt8)} {length : Nat}
  {plan : LinkPlan} {ps : List Path} {p draft : Path} {fault? : Option Fault}
  {fs made : FileSystem} {bytes : List UInt8} {mode : Mode}

theorem createFirst_eq_ok (h : createFirst fs fault? ps = .ok (p, made)) :
    p ∈ ps ∧ fs.createFile p .ofNewFile [] = .ok made := by
  induction ps with
  | nil => cases h
  | cons q ps ih =>
      unfold createFirst at h
      split at h
      · next hmade =>
        cases h
        obtain ⟨_, _, hcreate⟩ := bind_eq_ok_iff.1 hmade
        exact ⟨List.mem_cons_self, hcreate⟩
      · split at h
        · obtain ⟨hmem, hmade⟩ := ih h
          exact ⟨List.mem_cons_of_mem q hmem, hmade⟩
        · cases h

/-- An empty file that is filled could have been made with its bytes. -/
theorem createFile_of_filled (h : fs.createFile p mode [] = .ok made) (bytes : List UInt8) :
    fs.createFile p mode bytes = .ok (made.setContent fs.nextInode (.file bytes)) := by
  obtain ⟨s, n, hslot, hslash, hname, hwrite, rfl⟩ := createFile_eq_ok_iff.1 h
  exact createFile_eq_ok_iff.2
    ⟨s, n, hslot, hslash, hname, hwrite, setContent_create (dir_ne_nextInode hslot hname)⟩

/-- A new file can be removed, and then its node is left, which nothing leads to. -/
theorem discard_of_createFile (h : fs.createFile p mode bytes = .ok made) :
    ∃ device, discard made p = fs.addNode ⟨device, mode, default, .file bytes⟩ := by
  obtain ⟨s, n, hslot, hslash, hname, hwrite, rfl⟩ := createFile_eq_ok_iff.1 h
  obtain ⟨hlast, hlength, hfree⟩ := vacantName_eq_ok_iff.1 hname
  have hextends : fs.Extends (fs.create s.dir n mode (.file bytes)) :=
    (grows_create (by simp)).extends
  have hdir : fs.isDirectory s.dir = true := isDirectory_of_slot hslot hlast
  have hfile : (fs.create s.dir n mode (.file bytes)).isDirectory fs.nextInode = false := by
    rw [isDirectory, content?_create_nextInode]
  have hremove : (fs.create s.dir n mode (.file bytes)).removeFile p =
      .ok ((fs.create s.dir n mode (.file bytes)).removeEntry s.dir n) :=
    removeFile_eq_ok_iff.2 ⟨s, n, fs.nextInode, slot_name_extend hextends hslot, hlast,
      step_create (by simp) hslot hname, hslash, hextends.allows hdir ▸ hwrite, hfile, rfl⟩
  refine ⟨fs.device s.dir, ?_⟩
  rw [discard, hremove]
  exact removeEntry_create (by simp) hfree

/-- All that writing a draft can do. -/
inductive Writes (cfg : CheckedConfig) (systemTemp : Path) (tags : List (List UInt8))
    (length : Nat) (plan : LinkPlan) (fs : FileSystem) : Except Failure Path → FileSystem → Prop
  /-- Nothing was made. -/
  | refused {f} : Writes cfg systemTemp tags length plan fs (.error f) fs
  /-- A file was made and removed again. -/
  | discarded {e device bytes} : Writes cfg systemTemp tags length plan fs (.error (.io e))
      (fs.addNode ⟨device, .ofNewFile, default, .file bytes⟩)
  | written {m tag made} : plan.manifest cfg length = .ok m → tag ∈ tags →
      fs.createFile (path cfg (cfg.draftLocation systemTemp) tag) .ofNewFile m.text = .ok made →
      Writes cfg systemTemp tags length plan fs
        (.ok (path cfg (cfg.draftLocation systemTemp) tag)) made

theorem writes_write (cfg : CheckedConfig) (systemTemp : Path) (tags : List (List UInt8))
    (length : Nat) (plan : LinkPlan) (fs : FileSystem) (fault? : Option Fault) :
    Writes cfg systemTemp tags length plan fs
      (write cfg systemTemp tags length plan fs fault?).result
      (write cfg systemTemp tags length plan fs fault?).files := by
  unfold write
  split
  · exact .refused
  · next m hm =>
    split
    · exact .refused
    · next draft made hmade =>
      obtain ⟨hmem, hcreate⟩ := createFirst_eq_ok hmade
      obtain ⟨tag, htag, rfl⟩ := List.mem_map.1 hmem
      have hdiscarded : ∀ {e} bytes, Writes cfg systemTemp tags length plan fs (.error (.io e))
          (discard (made.setContent fs.nextInode (.file bytes))
            (path cfg (cfg.draftLocation systemTemp) tag)) := by
        intro e bytes
        obtain ⟨device, hdevice⟩ := discard_of_createFile (createFile_of_filled hcreate bytes)
        rw [hdevice]
        exact .discarded
      unfold fill
      split
      · next hfill =>
        split at hfill
        · cases hfill
          exact hdiscarded _
        · cases hfill
      · next hfill =>
        split at hfill
        · cases hfill
        · cases hfill
          split
          · exact hdiscarded _
          · exact .written hm htag (createFile_of_filled hcreate m.text)

/-- Whether or not it goes through, writing a draft takes nothing away. -/
theorem grows_of_write (cfg : CheckedConfig) (systemTemp : Path) (tags : List (List UInt8))
    (length : Nat) (plan : LinkPlan) (fs : FileSystem) (fault? : Option Fault) :
    fs.Grows (write cfg systemTemp tags length plan fs fault?).files := by
  have hwrites := writes_write cfg systemTemp tags length plan fs fault?
  generalize (write cfg systemTemp tags length plan fs fault?).result = result at hwrites
  generalize (write cfg systemTemp tags length plan fs fault?).files = files at hwrites ⊢
  cases hwrites with
  | refused => exact .refl fs
  | discarded => exact grows_addNode (by simp)
  | written _ _ hcreate => exact grows_of_createFile hcreate

theorem write_eq_ok (h : (write cfg systemTemp tags length plan fs fault?).result = .ok draft) :
    ∃ m, plan.manifest cfg length = .ok m ∧
      (∃ tag ∈ tags, draft = path cfg (cfg.draftLocation systemTemp) tag) ∧
      fs.createFile draft .ofNewFile m.text =
        .ok (write cfg systemTemp tags length plan fs fault?).files := by
  have hwrites := writes_write cfg systemTemp tags length plan fs fault?
  rw [h] at hwrites
  generalize (write cfg systemTemp tags length plan fs fault?).files = files at hwrites ⊢
  cases hwrites with
  | @written m tag _ hm htag hcreate => exact ⟨m, hm, ⟨tag, htag, rfl⟩, hcreate⟩

end Hardlinks.Draft
