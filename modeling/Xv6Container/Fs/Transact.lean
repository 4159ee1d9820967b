import Xv6Container.Fs.Lookup
import Xv6Container.Fs.Trans

/-!
# A transaction on a file

`filewrite` writes a file piece by piece, each piece between `begin_op` and `end_op` with the inode
locked.  What one such transaction does to the bytes of the file is said here once.

* `Stored` : a list of bytes after a part of it was replaced, possibly cut short;
* `Ready` : an inode that can be locked and written;
* `Ready.transact` : a transaction stores the bytes of its source, or changes no file.
-/

namespace Xv6Container

/-- `f'` is the file `f` after the bytes of `src` from `off` to `e`, out of `n`, were stored in
it. -/
structure Stored (src : ℕ → Option UInt8) (off n e : ℕ) (f f' : List UInt8) : Prop where
  le : off ≤ e ∧ e ≤ off + n
  length : f'.length = max f.length e
  other : ∀ p < f.length, p < off ∨ off + n ≤ p → f'[p]? = f[p]?
  stored : ∀ j, off + j < e → src j = f'[off + j]?
  whole : e < off + n → ∃ j < n, src j = none

namespace Stored

variable {src : ℕ → Option UInt8} {off n e : ℕ} {f f' : List UInt8}

theorem eq_of_mapped (h : Stored src off n e f f') (hsrc : ∀ j < n, src j ≠ none) :
    e = off + n := by
  by_contra hne
  have := h.le
  obtain ⟨j, hj, hnone⟩ := h.whole (by omega)
  exact hsrc j hj hnone

theorem pwrite (h : Stored src off n e f f') (hoff : off ≤ f.length)
    (hsrc : ∀ j < n, src j ≠ none) :
    ∃ bytes : List UInt8, bytes.length = n ∧ (∀ j < n, src j = bytes[j]?) ∧
      f' = pwrite f off bytes := by
  obtain rfl := h.eq_of_mapped hsrc
  have hlen : ((f'.drop off).take n).length = n := by
    rw [List.length_take, List.length_drop, h.length]
    omega
  have hget : ∀ j < n, ((f'.drop off).take n)[j]? = f'[off + j]? := fun j hj => by
    rw [List.getElem?_take_of_lt hj, List.getElem?_drop]
  refine ⟨(f'.drop off).take n, hlen, fun j hj => ?_, List.ext_getElem? fun p => ?_⟩
  · rw [hget j hj, h.stored j (by omega)]
  · rw [getElem?_pwrite hoff, hlen]
    split
    · rw [hget _ (by omega), show off + (p - off) = p by omega]
    · by_cases hp : p < f.length
      · exact h.other p hp (by omega)
      · rw [List.getElem?_eq_none (by rw [h.length]; omega), List.getElem?_eq_none (by omega)]

theorem append (h : Stored src off n e f f') (hoff : f.length = off) :
    ∃ out : List UInt8, f' = f ++ out ∧ out.length = e - off ∧ ∀ j < e - off, src j = out[j]? := by
  have hle := h.le
  have hlen := h.length
  refine ⟨f'.drop off, ?_, by rw [List.length_drop]; omega, fun j hj => ?_⟩
  · conv_lhs => rw [← List.take_append_drop off f']
    congr 1
    refine List.ext_getElem? fun p => ?_
    rw [List.getElem?_take]
    split
    · exact h.other p (by omega) (by omega)
    · rw [List.getElem?_eq_none (by omega)]
  · rw [List.getElem?_drop, h.stored j (by omega)]

end Stored

namespace FsState

variable {s s' : FsState} {a i off n e : ℕ} {src : ℕ → Option UInt8}

theorem Wrote.inum_eq (h : s.Wrote a off n e src s') (b : ℕ) :
    (s'.icache b).inum = (s.icache b).inum ∧ (s'.icache b).ref = (s.icache b).ref := by
  obtain ⟨u, z, hu⟩ := h.icache
  rw [hu]
  by_cases hb : b = a
  · subst hb
    simp
  · simp [hb]

theorem Wrote.held (h : s.Wrote a off n e src s') (ha : s.Held a) : s'.Held a := by
  obtain ⟨u, z, hu⟩ := h.icache
  refine ⟨by rw [(h.inum_eq a).2]; exact ha.1, ?_⟩
  rw [hu, Function.update_self]
  exact ha.2

theorem Wrote.stored_file (h : s.Wrote a off n e src s')
    (hl : s.disk.Live s.sb.ninodes (s.icache a).inum) :
    Stored src off n e (s.file (s.icache a).inum) (s'.file (s.icache a).inum) where
  le := h.le
  length := by rw [length_file, length_file, h.size]
  other p hp hout := by
    rw [length_file] at hp
    rw [getElem?_file, getElem?_file, h.size, if_pos (by omega), if_pos hp,
      h.other _ p hl hp fun _ => hout]
  stored j hj := by
    rw [getElem?_file, h.size, if_pos (by omega), h.stored j hj]
  whole := h.whole

/-- Entry `a` of the inode cache is a reference to the inode `i`, which has a type. -/
structure Ready (s : FsState) (a i : ℕ) : Prop where
  wf : s.WellFormed
  log : s.LogInv
  ref : 0 < (s.icache a).ref
  inum : (s.icache a).inum = i
  live : s.disk.Live s.sb.ninodes i

namespace Ready

variable {s₁ s₂ s₃ s₄ : FsState} {r : ℤ}

section

variable (h : s.Ready a i)

include h

theorem still (hst : s.Still s') : s'.Ready a i ∧ s'.file i = s.file i := by
  refine ⟨⟨hst.wellFormed h.wf h.live.1, hst.log h.log, ?_, ?_, ?_⟩, hst.file h.wf h.live⟩
  · rw [hst.icache]; exact h.ref
  · rw [hst.icache]; exact h.inum
  · rw [hst.sb]
    exact (hst.same h.wf h.live.1).live.2 h.live

theorem looks (hwf : s'.WellFormed) (hlk : s.Looks 0 s') : s'.Ready a i ∧ s'.file i = s.file i := by
  have hdisk : s'.disk = s.disk := by
    unfold FsState.disk FsState.blk FsState.dinode FsState.blk
    rw [hlk.store, hlk.sb]
  refine ⟨⟨hwf, h.log.congr hlk.sb (by rw [hlk.store]), ?_, ?_, ?_⟩, ?_⟩
  · rw [hlk.ref, Pi.zero_apply, add_zero]; exact h.ref
  · rw [hlk.inum _ h.ref]; exact h.inum
  · rw [hlk.sb, hdisk]; exact h.live
  · unfold FsState.file
    rw [hdisk]

theorem ilock {u : Unit} (h' : Returns (Xv6Container.ilock a) s u s') :
    s'.Ready a i ∧ s'.Held a ∧ s'.file i = s.file i := by
  obtain ⟨hwf, hheld, hlk⟩ := h.wf.ilock h'
  obtain ⟨hr, hf⟩ := h.looks hwf hlk
  exact ⟨hr, hheld, hf⟩

theorem iunlock {u : Unit} (h' : Returns (Xv6Container.iunlock a) s u s') :
    s'.Ready a i ∧ s'.file i = s.file i := by
  obtain ⟨hwf, hlk⟩ := h.wf.iunlock h'
  exact h.looks hwf hlk

theorem writei (ha : s.Held a) (hoff : off < 2 ^ 32) (hn : n < 2 ^ 32)
    (hw : Returns (Xv6Container.writei a src off n) s r s') : s'.Ready a i ∧
    ((r = -1 ∧ s' = s ∧ ¬Fits s i off n) ∨
      (r = n ∧ Fits s i off n ∧ ∃ e, Stored src off n e (s.file i) (s'.file i))) := by
  have henv := (h.wf.work ha).env_writei hw
  obtain ⟨hno, rfl, rfl⟩ | ⟨hfits, rfl, e, hwr⟩ := writei_spec h.wf ha hoff hn hw
  · exact ⟨h, .inl ⟨rfl, rfl, h.inum ▸ hno⟩⟩
  · have hst := hwr.stored_file (h.wf.live ha)
    rw [h.inum] at hfits hst
    have hinum : (s'.icache a).inum = i := (hwr.inum_eq a).1.trans h.inum
    refine ⟨⟨hwr.wf, henv.log h.log, ?_, hinum, ?_⟩, .inr ⟨rfl, hfits, e, hst⟩⟩
    · rw [(hwr.inum_eq a).2]; exact h.ref
    · have := hwr.wf.live (hwr.held ha)
      rwa [hinum] at this

/-- **A transaction of `filewrite`** stores the bytes of its source up to a piece with an unmapped
byte and returns their number as if all had been there, or it returns -1 and changes no byte of the
file, if the range does not fit. -/
theorem transact (hoff : off < 2 ^ 32) (hn : n < 2 ^ 32) (h1 : Returns beginOp s () s₁)
    (h2 : Returns (Xv6Container.ilock a) s₁ () s₂)
    (h3 : Returns (Xv6Container.writei a src off n) s₂ r s₃)
    (h4 : Returns (Xv6Container.iunlock a) s₃ () s₄) (h5 : Returns endOp s₄ () s') : s'.Ready a i ∧
    ((r = -1 ∧ s'.file i = s.file i ∧ ¬Fits s i off n) ∨
      (r = n ∧ Fits s i off n ∧ ∃ e, Stored src off n e (s.file i) (s'.file i))) := by
  obtain ⟨hr1, hf1⟩ := h.still (still_beginOp h1)
  obtain ⟨hr2, hheld, hf2⟩ := hr1.ilock h2
  obtain ⟨hr3, h3⟩ := hr2.writei hheld hoff hn h3
  obtain ⟨hr4, hf4⟩ := hr3.iunlock h4
  obtain ⟨hr5, hf5⟩ := hr4.still (still_endOp hr4.wf.formatted hr4.log h5)
  have hfits : Fits s₂ i off n ↔ Fits s i off n := by
    unfold Fits
    rw [← length_file, ← length_file, hf2, hf1]
  rw [hf2.trans hf1, hfits] at h3
  rw [hf5.trans hf4]
  refine ⟨hr5, h3.imp_left ?_⟩
  rintro ⟨rfl, rfl, hno⟩
  exact ⟨rfl, hf2.trans hf1, hno⟩

end

end Ready

end FsState

end Xv6Container
