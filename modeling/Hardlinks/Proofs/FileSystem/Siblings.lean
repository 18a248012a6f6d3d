-- SUMMARY: Two names of one node in one directory, when the node leads to a file.
import Hardlinks.Proofs.FileSystem.Removal

/-!
# Siblings

Two names in one directory can stand for one node, which is a file or a symbolic link to a file.
Both names then lead to that file by the same links, and either can be removed without harm to the
other (`Route.sibling`): the way from a name to a file does not come back to the name.
-/

namespace Hardlinks.FileSystem

variable {fs : FileSystem} {dir d i j k : Inode} {x : Segment} {n m : Name}
  {segments : List Segment} {slash : Bool} {links : List (Inode × Segment)} {s : Slot}

/-- The way from a link to a file does not come back to the link. -/
theorem Route.notMem_self (h : fs.Route .follow d [x] slash ((d, x) :: links) s)
    (hs : fs.Settled s j) (hfile : fs.isDirectory j = false) : (d, x) ∉ links := by
  intro hmem
  have hfrom : ∃ rest slash' links', fs.Route .follow d (x :: rest) slash' ((d, x) :: links') s ∧
      (d, x) :: links' <:+ links := by
    cases h with
    | follow _ _ _ hroute =>
        obtain ⟨_, rest, slash', links', _, hfrom, hsuffix⟩ := hroute.from_link hmem
        exact ⟨rest, slash', links', hfrom, hsuffix⟩
  obtain ⟨rest, slash', links', hfrom, hsuffix⟩ := hfrom
  cases rest with
  | cons next rest => exact h.not_through_file hs hfile (List.cons_ne_nil next rest) hfrom
  | nil =>
      obtain ⟨hlinks, _⟩ := h.unique_of_agree hfrom (.inr ⟨⟨j, hs⟩, j, hs⟩)
      have hlength := hsuffix.length_le
      rw [(List.cons.inj hlinks).2, List.length_cons] at hlength
      exact Nat.lt_irrefl _ hlength

/-- What is no link is on no way. -/
theorem Route.notMem_of_target? {ending : Ending} (h : fs.Route ending dir segments slash links s)
    (hi : fs.step d x = .ok i) (htarget : fs.target? i = none) : (d, x) ∉ links := by
  intro hmem
  obtain ⟨target, _, _, _, hlink, _⟩ := h.from_link hmem
  simp [linkAt?, hi, htarget] at hlink

/-- A further name of a node leads to the file that the first name leads to, and not through the
first name. Unless the node is that file, both ways end at one entry. -/
theorem Route.sibling {links' : List (Inode × Segment)} (hnm : n ≠ m)
    (hname : fs.Route .name dir (segments ++ [.name n]) false links ⟨d, .name n, false⟩)
    (hn : fs.step d (.name n) = .ok k) (hm : fs.step d (.name m) = .ok k)
    (h : fs.Route .follow dir (segments ++ [.name n]) false links' s) (hj : fs.nodeAt s = .ok j)
    (hs : fs.Settled s j) (hfile : fs.isDirectory j = false) :
    ∃ links'' t, fs.Route .follow dir (segments ++ [.name m]) false links'' t ∧
      links''.length = links'.length ∧ fs.nodeAt t = .ok j ∧
      (d, .name n) ∉ (t.dir, t.last) :: links'' ∧ (k = j ∨ t = s) := by
  obtain ⟨_, hname'⟩ := hname.replace_last (y := .name m)
  obtain ⟨rest, rfl, hrest⟩ := h.from_slot hname rfl
  have hfront : (d, .name n) ∉ links := hname'.notMem_of_file hrest hs hfile
  cases hrest with
  | stop henter hlink =>
      -- The node is the file itself.
      obtain rfl := Except.ok.inj (hn.symm.trans hs.1)
      have hsettled : fs.Settled ⟨d, .name m, false⟩ k := ⟨hm, hs.2⟩
      have hstop : fs.Route .follow d [.name m] false [] ⟨d, .name m, false⟩ :=
        .stop henter fun target htarget => by simp [hsettled.linkAt?] at htarget
      refine ⟨links ++ [], _, hname'.append_slot rfl hstop, rfl, ?_, ?_, .inl rfl⟩
      · exact nodeAt_eq_ok_iff.2 ⟨hm, by simp⟩
      · simp [hnm, hfront]
  | @follow _ _ _ target back _ henter htarget hfollows hroute =>
      -- The node is a link, and both names are replaced by its target.
      have hself := Route.notMem_self (.follow henter htarget hfollows hroute) hs hfile
      have htarget' : fs.linkAt? d (.name m) = some target := by
        simpa [linkAt?, hn, hm] using htarget
      have hfollow : fs.Route .follow d [.name m] false ((d, .name m) :: back) s :=
        .follow henter htarget' hfollows hroute
      refine ⟨links ++ (d, .name m) :: back, s, hname'.append_slot rfl hfollow, by simp, hj, ?_,
        .inr rfl⟩
      have hend : (d, Segment.name n) ≠ (s.dir, s.last) := by
        intro heq
        obtain ⟨hdir, hlast⟩ := Prod.mk.inj heq
        rw [hdir, hlast, hs.linkAt?] at htarget
        cases htarget
      simp [hend, hfront, hself, hnm]

end Hardlinks.FileSystem
