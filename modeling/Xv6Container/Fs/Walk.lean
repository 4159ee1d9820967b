import Xv6Container.Fs.Lookup

/-!
# Lookups where every inode has a name

`namex` drops a reference to each directory that it goes through, and the last reference to an inode
without links frees it.  Where no inode is without links (`FsState.Linked`), a lookup only changes
the inode cache.

* `namei_walks` : what `namei` changes, for a process of the root container.
-/

namespace Xv6Container

namespace FsState

/-- Every inode in use has links, and every directory entry names an inode of the disk. -/
structure Linked (s : FsState) : Prop where
  links : ∀ i, s.disk.Live s.sb.ninodes i → (s.dinode i).nlink ≠ 0
  entries : ∀ d m de, d < s.sb.ninodes → (s.dinode d).type = T_DIR → s.HasEntry d m de →
    de.inum < s.sb.ninodes

theorem linked_iff {s : FsState} : s.Linked ↔
    (∀ i < s.sb.ninodes, (s.dinode i).type ≠ 0 → (s.dinode i).nlink ≠ 0) ∧
    ∀ d < s.sb.ninodes, (s.dinode d).type = T_DIR → ∀ m < s.disk.size d / DIRENT,
      (s.dirent d m).inum ≠ 0 → (s.dirent d m).inum < s.sb.ninodes := by
  constructor
  · intro h
    exact ⟨fun i hi ht => h.links i ⟨hi, ht⟩, fun d hd ht m hm h0 =>
      h.entries d m _ hd ht (s.hasEntry_iff.2 ⟨hm, rfl, h0⟩)⟩
  · rintro ⟨hl, he⟩
    refine ⟨fun i hi => hl i hi.1 hi.2, fun d m de hd ht hde => ?_⟩
    obtain ⟨hm, rfl, h0⟩ := s.hasEntry_iff.1 hde
    exact he d hd ht m hm h0

instance (s : FsState) : Decidable s.Linked := decidable_of_iff _ linked_iff.symm

/-- `s'` is well formed, and it differs from `s` in the inode cache only. -/
structure Walked (s s' : FsState) : Prop where
  wf : s'.WellFormed
  store : s'.store = s.store
  sb : s'.sb = s.sb
  kern : s'.kern = s.kern
  cur : s'.cur = s.cur

variable {s s' s'' : FsState} {δ : ℕ → ℤ}

theorem Walked.trans (h : s.Walked s') (h' : s'.Walked s'') : s.Walked s'' :=
  ⟨h'.wf, h'.store.trans h.store, h'.sb.trans h.sb, h'.kern.trans h.kern, h'.cur.trans h.cur⟩

theorem Looks.walked (h : Looks δ s s') (hs : s'.WellFormed) : s.Walked s' :=
  ⟨hs, h.store, h.sb, h.kern, h.cur⟩

theorem Walked.disk_eq (h : s.Walked s') : s'.disk = s.disk := by
  unfold FsState.disk FsState.blk FsState.dinode FsState.blk
  rw [h.store, h.sb]

theorem Walked.file_eq (h : s.Walked s') (i : ℕ) : s'.file i = s.file i := by
  unfold FsState.file
  rw [h.disk_eq]

theorem Walked.linked (h : s.Walked s') (hl : s.Linked) : s'.Linked := by
  have hdin := dinode_eq h.store h.sb
  refine ⟨fun i hi => ?_, fun d m de hlt hd he => ?_⟩
  · rw [hdin]
    rw [h.disk_eq, h.sb] at hi
    exact hl.links i hi
  · rw [hdin] at hd
    rw [h.sb] at hlt ⊢
    exact hl.entries d m de hlt hd (he.congr h.store.symm h.sb.symm)

end FsState

variable {s s' : FsState} {ip next a fuel : ℕ} {path name name' : CharArray}

theorem namexRound_walks {parent : Bool} (hs : s.WellFormed) (hl : s.Linked)
    (href : 0 < (s.icache ip).ref)
    (h : Returns (namexRound parent ip path name) s (.inl next) s') :
    s.Walked s' ∧ 0 < (s'.icache next).ref := by
  obtain ⟨t, m, de, hwf, hheld, hlooks, hput, -⟩ :=
    namexRound_moves hs href (fun hd m de => hl.entries _ m de (hs.cached.inum ip href) hd) h
  have hwalk := hlooks.walked hwf
  obtain ⟨-, rfl⟩ | ⟨⟨-, hv, h0⟩, -⟩ := returns_iput hput
  · have hadd := FsState.looks_addRef t ip (-1)
    refine ⟨hwalk.trans (hadd.walked (hwf.addRef hheld.1 (by have := hheld.1; omega))), ?_⟩
    rw [hadd.ref, hlooks.ref, Pi.single_eq_same]
    have hnext := hs.cached.ref next
    by_cases he : next = ip
    · rw [he] at hnext ⊢
      rw [Pi.single_eq_same]
      omega
    · rw [Pi.single_eq_of_ne he]
      omega
  · -- the directory would have no links
    rw [hwf.cached.din ip (by simp) hheld.1 hv] at h0
    refine absurd h0 ((hwalk.linked hl).links _ ⟨hwf.cached.inum ip hheld.1, ?_⟩)
    have := hwf.cached.type ip hheld.1 hv
    rwa [hwf.cached.din ip (by simp) hheld.1 hv] at this

theorem namexLoop_walks (hs : s.WellFormed) (hl : s.Linked) (href : 0 < (s.icache ip).ref)
    (h : Returns (namexLoop false fuel path name ip) s (some a, name') s') :
    s.Walked s' ∧ 0 < (s'.icache a).ref := by
  let I (_ : ℕ) (_ _ : CharArray) ip t := s.Walked t ∧ 0 < (t.icache ip).ref
  obtain ⟨n, p, x, t, ⟨hwalk, href⟩, hwf, hlooks⟩ :
      ∃ n p x t, I (n + 1) p x a t ∧ s'.WellFormed ∧ t.Looks 0 s' := by
    refine namexLoop_ind (fun h => h.1.wf) ?_ ⟨⟨hs, rfl, rfl, rfl, rfl⟩, href⟩ h
    rintro n p x ip t p' x' next t' ⟨hwalk, href⟩ - hround
    obtain ⟨hwalk', hnext⟩ := namexRound_walks hwalk.wf (hwalk.linked hl) href hround
    exact ⟨hwalk.trans hwalk', hnext⟩
  refine ⟨hwalk.trans (hlooks.walked hwf), ?_⟩
  rwa [hlooks.ref, Pi.zero_apply, add_zero]

/-- **A lookup by `namei`**, by a process of the root container, changes the inode cache only. -/
theorem namei_walks (hs : s.WellFormed) (hl : s.Linked) (hroot : ROOTINO < s.sb.ninodes)
    (hcont : s.kern.mycont s.cur = some root)
    (hcwd : ∀ w, (s.kern.proc s.cur).cwd = some w → 0 < (s.icache w).ref)
    (h : Returns (namei path) s (some a) s') : s.Walked s' ∧ 0 < (s'.icache a).ref := by
  obtain ⟨name', h⟩ := returns_namei h
  obtain ⟨_, t, hstart, ⟨ip, rfl, hloop⟩ | ⟨-, h, -⟩⟩ := returns_namex h
  · have hstart' : s.Walked t ∧ 0 < (t.icache ip).ref := by
      obtain ⟨-, -, _, hip, hget⟩ | ⟨-, c, hc, hne, -⟩ | ⟨-, w, hw, hip, rfl⟩ :=
        returns_namexStart hstart
      · cases hip
        obtain ⟨hlooks, -⟩ := FsState.looks_iget hget
        refine ⟨hlooks.walked (hs.iget hroot hget), ?_⟩
        have := hs.cached.ref ip
        rw [hlooks.ref, Pi.single_eq_same]
        omega
      · exact absurd (Option.some.inj (hc.symm.trans hcont)) hne
      · cases hip
        have hpos := hcwd _ hw
        refine ⟨(FsState.looks_addRef s ip 1).walked (hs.addRef hpos (by omega)), ?_⟩
        rw [(FsState.looks_addRef s ip 1).ref, Pi.single_eq_same]
        omega
    obtain ⟨hwalk, href⟩ := hstart'
    obtain ⟨hwalk', ha⟩ := namexLoop_walks hwalk.wf (hwalk.linked hl) href hloop
    exact ⟨hwalk.trans hwalk', ha⟩
  · cases h

end Xv6Container
