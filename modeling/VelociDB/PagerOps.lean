/-
# What the pager's methods do to the files

One specification for each method that does I/O, for every behaviour of the files
within `Disk.Faulty`.  Each says what holds after every outcome, and that wherever the
machine stops the files are `Recoverable`.  A method never returns an error when the
file operations do not.
-/
import VelociDB.PagerInv

namespace VelociDB

open Bytes Blocks Wal PagerSys Snapshot Pager

variable {H : (op : DiskOp) → Disk → Except VelociError op.Ans → Disk → Prop}
  {J : Disk → Prop} {crc : Bytes → UInt32} {S : Bytes} {gs tried : List CommittedGroup}

/-- The operations that only fail when an error is injected. -/
def NeverFails (op : DiskOp) : Prop :=
  ∀ d e d', ¬ Disk.Sound op d (.error e) d'

theorem Reliable.no_error (hR : Reliable H) {op : DiskOp} (hop : NeverFails op) {d d' : Disk}
    {e : VelociError} : ¬ H op d (.error e) d' :=
  fun h => hop d e d' (hR _ _ _ _ h)

theorem neverFails_write {op : DiskOp} (h : ∀ o n, op ≠ .dataRead o n) : NeverFails op := by
  intro d e d' hs
  cases op with
  | dataRead o n => exact h o n rfl
  | _ => cases (Prod.mk.inj hs).1

/-! ## Writing pages into the data file -/

theorem wp_writePageRaw (hH : WithinFaults H) {I : Disk → Prop} (hI : ∀ d, I d → J d)
    {q : Nat} {bs : Bytes} (hlen : bs.length = pageSize) (hq : q < maxPages)
    (hstep : ∀ d n, I d → I { d with data := d.data.writeTorn (q * pageSize) (bs.take n) })
    {p : Pager} {d : Disk} (hd : I d) :
    PagerM.wp H J (writePageRaw q bs) p d fun r p' d' =>
      I d' ∧ d'.wal = d.wal ∧ (Reliable H → r = .ok ()) ∧
        match r with
        | .ok _ => d'.data.now = overwrite d.data.now (q * pageSize) bs ∧
            p' = { p with numPages := max p.numPages (q + 1) }
        | .error _ => p' = p := by
  unfold writePageRaw
  rw [if_neg (not_not.mpr hlen), offset_eq hq]
  refine PagerM.wp_bind (PagerM.wp_file (hI d hd) ?_)
  intro r d₁ h₁
  obtain rfl := (hH _ _ _ _ h₁).of_dataSeek
  refine ⟨hI _ hd, ?_⟩
  cases r with
  | error e =>
      refine ⟨hd, rfl, fun hR => ?_, rfl⟩
      exact absurd h₁ (hR.no_error (neverFails_write (by simp)))
  | ok _ =>
      refine PagerM.wp_bind (PagerM.wp_file (hI _ hd) ?_)
      intro r d₂ h₂
      rcases (hH _ _ _ _ h₂).of_dataWrite with ⟨rfl, rfl⟩ | ⟨n, ⟨kind, rfl⟩, rfl⟩
      · have hI₂ := hstep d₁ bs.length hd
        rw [List.take_length] at hI₂
        refine ⟨hI _ hI₂, PagerM.wp_ret rfl (hI _ hI₂) ?_⟩
        refine ⟨hI₂, rfl, fun _ => rfl, rfl, ?_⟩
        rw [succ_mod_u64 hq]
        have hmax : (if p.numPages ≤ q then q + 1 else p.numPages) = max p.numPages (q + 1) := by
          split <;> omega
        show { p with numPages := if p.numPages ≤ q then q + 1 else p.numPages } = _
        rw [hmax]
      · have hI₂ := hstep d₁ n hd
        refine ⟨hI _ hI₂, hI₂, rfl, fun hR => ?_, rfl⟩
        exact absurd h₂ (hR.no_error (neverFails_write (by simp)))

theorem wp_writePagesRaw (hH : WithinFaults H) {I : Disk → Prop} (hI : ∀ d, I d → J d) :
    ∀ {ws : List (Nat × Bytes)}, (∀ w ∈ ws, w.2.length = pageSize ∧ w.1 < maxPages) →
    (∀ w ∈ ws, ∀ d n, I d →
      I { d with data := d.data.writeTorn (w.1 * pageSize) (w.2.take n) }) →
    ∀ {p : Pager} {d : Disk}, I d →
    PagerM.wp H J (writePagesRaw ws) p d fun r p' d' =>
      I d' ∧ d'.wal = d.wal ∧ (Reliable H → r = .ok ()) ∧
        match r with
        | .ok _ => d'.data.now = applied d.data.now ws ∧
            p' = { p with numPages := pagesAfter p.numPages ws }
        | .error _ => ∃ k, p' = { p with numPages := pagesAfter p.numPages (ws.take k) }
  | [], _, _, p, d, hd =>
      PagerM.wp_ret rfl (hI d hd) ⟨hd, rfl, fun _ => rfl, rfl, rfl⟩
  | w :: ws, hws, hstep, p, d, hd => by
      have hw := hws w List.mem_cons_self
      refine PagerM.wp_bind (PagerM.wp_mono (wp_writePageRaw hH hI hw.1 hw.2
        (hstep w List.mem_cons_self) hd) ?_)
      intro r p₁ d₁ _ ⟨hd₁, hwal₁, hR₁, h₁⟩
      cases r with
      | error e =>
          refine ⟨hd₁, hwal₁, fun hR => ?_, 0, h₁⟩
          cases hR₁ hR
      | ok _ =>
          obtain ⟨hnow₁, rfl⟩ := h₁
          refine PagerM.wp_mono (wp_writePagesRaw hH hI
            (fun x hx => hws x (List.mem_cons_of_mem _ hx))
            (fun x hx => hstep x (List.mem_cons_of_mem _ hx)) hd₁) ?_
          intro r p₂ d₂ _ ⟨hd₂, hwal₂, hR₂, h₂⟩
          refine ⟨hd₂, hwal₂.trans hwal₁, hR₂, ?_⟩
          cases r with
          | error e =>
              obtain ⟨k, hk⟩ := h₂
              exact ⟨k + 1, hk⟩
          | ok _ =>
              obtain ⟨hnow₂, hp₂⟩ := h₂
              refine ⟨?_, hp₂⟩
              rw [hnow₂, hnow₁]
              rfl

/-! ## Truncating the log -/

theorem wp_truncateWal (hH : WithinFaults H) (hJ : ∀ d, Recoverable crc S tried d → J d)
    {p : Pager} {d : Disk} (hd : DiskInv crc S gs tried d) (hdata : d.data = .stable S) :
    PagerM.wp H J truncateWal p d fun r p' d' =>
      d'.data = d.data ∧ (Reliable H → r = .ok ()) ∧
        match r with
        | .ok _ => DiskInv crc S [] tried d' ∧ d'.wal = .stable [] ∧
            p' = { p with wal := { p.wal with len := 0 } }
        | .error _ => DiskInv crc S gs tried d' ∧ p' = p := by
  have hafter : d.data.after = {S} := by rw [hdata]; rfl
  have hJd := hJ _ hd.recoverable
  have hJcut := hJ _ (hd.recoverable_cut hafter setLen_zero_after)
  have hcut := hd.cutFailed hafter setLen_zero_after (setLen_zero_now _)
  have hfail : ∀ {op : DiskOp} {d d' : Disk} {e : VelociError}, H op d (.error e) d' →
      (∀ o n, op ≠ .dataRead o n) → ¬ Reliable H :=
    fun h hop hR => hR.no_error (neverFails_write hop) h
  refine PagerM.wp_wal (Prog.wp_bind (Prog.wp_attempt (Prog.wp_bind ?_)))
  refine Prog.wp_lift hJd fun r d₁ h₁ => ?_
  cases r with
  | error e =>
      have hR := hfail h₁ (by simp)
      rcases (hH _ _ _ _ h₁).of_walSetLen with rfl | ⟨rfl, -⟩
      · exact ⟨hJcut, hJcut, rfl, fun h => absurd h hR, hcut, rfl⟩
      · exact ⟨hJd, hJd, rfl, fun h => absurd h hR, hd, rfl⟩
  | ok _ =>
      obtain rfl | ⟨-, kind, hk⟩ := (hH _ _ _ _ h₁).of_walSetLen
      swap
      · cases hk
      refine ⟨hJcut, Prog.wp_bind (Prog.wp_lift hJcut fun r d₂ h₂ => ?_)⟩
      obtain rfl := (hH _ _ _ _ h₂).of_walSeek
      cases r with
      | error e =>
          have hR := hfail h₂ (by simp)
          exact ⟨hJcut, hJcut, rfl, fun h => absurd h hR, hcut, rfl⟩
      | ok _ =>
          refine ⟨hJcut, Prog.wp_bind (Prog.wp_lift hJcut fun r d₃ h₃ => ?_)⟩
          have hstable : (d.wal.setLen 0).sync = .stable [] := by simp [DiskFile.sync, resize]
          have hsync : DiskInv crc S [] tried { d with wal := (d.wal.setLen 0).sync } :=
            DiskInv.emptied hd.tried_valid hafter hstable
          have hJsync := hJ _ hsync.recoverable
          cases r with
          | error e =>
              have hR := hfail h₃ (by simp)
              rcases (hH _ _ _ _ h₃).of_walSync with rfl | ⟨rfl, -⟩
              · refine ⟨hJsync, hJsync, rfl, fun h => absurd h hR, ?_, rfl⟩
                refine hd.cutFailed hafter (fun w hw => Or.inr ?_) (setLen_zero_now _)
                rw [hstable] at hw
                exact hw
              · exact ⟨hJcut, hJcut, rfl, fun h => absurd h hR, hcut, rfl⟩
          | ok _ =>
              obtain rfl | ⟨-, kind, hk⟩ := (hH _ _ _ _ h₃).of_walSync
              · exact ⟨hJsync, hJsync, hJsync, rfl, fun _ => rfl, hsync, hstable, rfl⟩
              · cases hk

/-! ## Appending a group -/

/-- The outcomes of an append: the group is in the log and in `Σ`, or it may come back,
unless appends only fail short. -/
def AppendEnds (crc : Bytes → UInt32)
    (H : (op : DiskOp) → Disk → Except VelociError op.Ans → Disk → Prop) (S : Bytes)
    (gs tried : List CommittedGroup) (x : CommittedGroup) (w : WalManager) (data : DiskFile)
    (r : Except VelociError Unit) (w' : WalManager) (d' : Disk) : Prop :=
  d'.data = data ∧ (Reliable H → r = .ok ()) ∧
    match r with
    | .ok _ => DiskInv crc (applied S x.writes) (gs ++ [x]) [] d' ∧
        d'.wal = .stable (groupsBytes crc (gs ++ [x])) ∧
        w' = { w with len := (groupsBytes crc (gs ++ [x])).length }
    | .error _ => DiskInv crc S gs (x :: tried) d' ∧
        (FailsShort H → DiskInv crc S gs tried d') ∧ w' = w

/-- What `append_group` does when the log ends where the manager believes it does. -/
theorem wp_appendGroup (hH : WithinFaults H) {x : CommittedGroup} (hx : CommittedGroup.Valid x)
    (hJ : ∀ d, Recoverable crc S (x :: tried) d → J d) {w : WalManager} {d : Disk}
    (hd : DiskInv crc S gs tried d) (hnow : d.wal.now = groupsBytes crc gs)
    (hlen : w.len = (groupsBytes crc gs).length) :
    Prog.wp H J (w.appendGroup crc x) d fun o d' => ∃ r w', o = .ok (r, w') ∧
      AppendEnds crc H S gs tried x w d.data r w' d' := by
  have hfail : ∀ {op : DiskOp} {d d' : Disk} {e : VelociError}, H op d (.error e) d' →
      (∀ o n, op ≠ .dataRead o n) → ¬ Reliable H :=
    fun h hop hR => hR.no_error (neverFails_write hop) h
  have hend : groupsBytes crc (gs ++ [x]) = groupsBytes crc gs ++ groupBytes crc x := by
    simp [groupsBytes]
  have hover : ∀ n, overwrite d.wal.now w.len ((groupBytes crc x).take n) =
      groupsBytes crc gs ++ (groupBytes crc x).take n := by
    intro n
    rw [hlen, hnow, overwrite_append]
  -- the log while the append is under way: the old images and initial parts of the group
  have hinv : ∀ wal' : DiskFile, (∀ v ∈ wal'.after, v ∈ d.wal.after ∨
      ∃ n, v = groupsBytes crc gs ++ (groupBytes crc x).take n) →
      J { d with wal := wal' } := fun wal' h => hJ _ (hd.recoverable_appending hx h)
  have hwrite : ∀ n, ∀ v ∈ (d.wal.writeOrdered w.len ((groupBytes crc x).take n)).after,
      v ∈ d.wal.after ∨ ∃ n, v = groupsBytes crc gs ++ (groupBytes crc x).take n := by
    rintro n v (hv | ⟨k, hv⟩)
    · exact Or.inl hv
    · rw [List.take_take] at hv
      exact Or.inr ⟨min k n, hv.trans (hover _)⟩
  have hwrite_short : ∀ n < (groupBytes crc x).length,
      ∀ v ∈ (d.wal.writeOrdered w.len ((groupBytes crc x).take n)).after,
      v ∈ d.wal.after ∨ ∃ n < (groupBytes crc x).length,
        v = groupsBytes crc gs ++ (groupBytes crc x).take n := by
    rintro n hn v (hv | ⟨k, hv⟩)
    · exact Or.inl hv
    · rw [List.take_take] at hv
      exact Or.inr ⟨min k n, lt_of_le_of_lt (Nat.min_le_right _ _) hn, hv.trans (hover _)⟩
  -- the clean-up behind a failed append
  have hclean : ∀ (wal' : DiskFile) (e : VelociError),
      (∀ v ∈ wal'.after, v ∈ d.wal.after ∨
        ∃ n, v = groupsBytes crc gs ++ (groupBytes crc x).take n) →
      (FailsShort H → ∀ v ∈ wal'.after, v ∈ d.wal.after ∨ ∃ n < (groupBytes crc x).length,
        v = groupsBytes crc gs ++ (groupBytes crc x).take n) →
      (∃ t, wal'.now = groupsBytes crc gs ++ t) → ¬ Reliable H →
      Prog.wp H J (do
          let _ ← Prog.attempt (io (.walSetLen w.len))
          return (Except.error (α := Unit) e, w)) { d with wal := wal' } fun o d' =>
        ∃ r w', o = .ok (r, w') ∧ AppendEnds crc H S gs tried x w d.data r w' d' := by
    rintro wal' e hafter hshort ⟨t, ht⟩ hR
    have hJ' := hinv wal' hafter
    refine Prog.wp_bind (Prog.wp_attempt (Prog.wp_lift hJ' fun r d' h' => ?_))
    have hcut : resize wal'.now w.len = groupsBytes crc gs := by
      rw [ht, hlen, resize_append_left]
    have hafter' : ∀ v ∈ (wal'.setLen w.len).after, v ∈ d.wal.after ∨
        ∃ n, v = groupsBytes crc gs ++ (groupBytes crc x).take n := by
      rintro v (hv | hv)
      · exact hafter v hv
      · refine Or.inr ⟨0, ?_⟩
        rw [Set.mem_singleton_iff.mp hv, hcut]
        simp
    have hshort' : FailsShort H → ∀ v ∈ (wal'.setLen w.len).after, v ∈ d.wal.after ∨
        ∃ n < (groupBytes crc x).length,
          v = groupsBytes crc gs ++ (groupBytes crc x).take n := by
      rintro hS v (hv | hv)
      · exact hshort hS v hv
      · refine Or.inr ⟨0, lt_of_lt_of_le (by decide) (length_groupBytes x), ?_⟩
        rw [Set.mem_singleton_iff.mp hv, hcut]
        simp
    have hnow' : ∃ t, (wal'.setLen w.len).now = groupsBytes crc gs ++ t :=
      ⟨[], by simpa using hcut⟩
    rcases (hH _ _ _ _ h').of_walSetLen with rfl | ⟨rfl, -⟩
    · exact ⟨hinv _ hafter', hinv _ hafter', _, _, rfl, rfl, fun h => absurd h hR,
        hd.appendFailed hx hafter' hnow',
        fun hS => hd.appendFailed_short hx (hshort' hS) hnow', rfl⟩
    · exact ⟨hJ', hJ', _, _, rfl, rfl, fun h => absurd h hR,
        hd.appendFailed hx hafter ⟨t, ht⟩,
        fun hS => hd.appendFailed_short hx (hshort hS) ⟨t, ht⟩, rfl⟩
  have hJd : J d := hinv d.wal fun v hv => Or.inl hv
  unfold WalManager.appendGroup
  rw [hx.no_short]
  refine Prog.wp_bind (Prog.wp_attempt (Prog.wp_bind (Prog.wp_lift hJd fun r d₁ h₁ => ?_)))
  obtain rfl := (hH _ _ _ _ h₁).of_walSeek
  refine ⟨hJd, ?_⟩
  cases r with
  | error e =>
      exact hclean d₁.wal e (fun v hv => Or.inl hv) (fun _ v hv => Or.inl hv) ⟨[], by simp [hnow]⟩
        (hfail h₁ (by simp))
  | ok _ =>
      refine Prog.wp_bind (Prog.wp_lift hJd fun r d₂ h₂ => ?_)
      rcases (hH _ _ _ _ h₂).of_walWrite with ⟨rfl, rfl⟩ | ⟨n, ⟨kind, rfl⟩, rfl⟩
      · have hall := hwrite (groupBytes crc x).length
        have hnow₂ := hover (groupBytes crc x).length
        rw [List.take_length] at hall hnow₂
        have hJ₂ := hinv _ hall
        refine ⟨hJ₂, Prog.wp_lift hJ₂ fun r d₃ h₃ => ?_⟩
        have hstable : (d₁.wal.writeOrdered w.len (groupBytes crc x)).sync =
            .stable (groupsBytes crc (gs ++ [x])) := by
          rw [DiskFile.sync, DiskFile.writeOrdered_now, hnow₂, hend]
        have hdone := hd.appended hx
        cases r with
        | error e =>
            have hR := hfail h₃ (by simp)
            have hfull : ¬ FailsShort H := by
              intro hS
              rcases (hS _ _ _ _ h₃).2 with hok | hnil
              · cases hok
              · have hpos : _ ≤ (groupBytes crc x).length := length_groupBytes x
                rw [DiskFile.writeOrdered_now, hnow₂] at hnil
                have := congrArg List.length hnil
                simp only [List.length_append, List.length_nil] at this
                omega
            rcases (hH _ _ _ _ h₃).of_walSync with rfl | ⟨rfl, -⟩
            · have hafter : ∀ v ∈ (d₁.wal.writeOrdered w.len (groupBytes crc x)).sync.after,
                  v ∈ d₁.wal.after ∨ ∃ n, v = groupsBytes crc gs ++ (groupBytes crc x).take n := by
                intro v hv
                rw [hstable, hend] at hv
                exact Or.inr ⟨(groupBytes crc x).length, by rw [List.take_length]; exact hv⟩
              exact ⟨hinv _ hafter, hclean _ e hafter (fun hS => absurd hS hfull) ⟨_, hnow₂⟩ hR⟩
            · exact ⟨hJ₂, hclean _ e hall (fun hS => absurd hS hfull) ⟨_, hnow₂⟩ hR⟩
        | ok _ =>
            obtain rfl | ⟨-, kind, hk⟩ := (hH _ _ _ _ h₃).of_walSync
            swap
            · cases hk
            have hJ₃ : J { d₁ with wal := (d₁.wal.writeOrdered w.len (groupBytes crc x)).sync } := by
              refine hJ _ ?_
              rw [hstable]
              exact Recoverable.before hdone.recoverable
            refine ⟨hJ₃, hJ₃, _, _, rfl, rfl, fun _ => rfl, ?_, hstable, ?_⟩
            · show DiskInv crc _ _ _ { d₁ with
                wal := (d₁.wal.writeOrdered w.len (groupBytes crc x)).sync }
              rw [hstable]
              exact hdone
            · rw [hend, List.length_append, ← hlen]
      · have hall := hwrite n
        refine ⟨hinv _ hall, hclean _ _ hall ?_ ⟨_, hover n⟩ (hfail h₂ (by simp))⟩
        intro hS
        rcases hS _ _ _ _ h₂ with ⟨hok, -⟩ | ⟨n', hn', -, heq⟩
        · cases hok
        · rw [(Disk.mk.inj heq).2]
          exact hwrite_short n' hn'

/-! ## The methods -/

/-- The pager and its files are in order. -/
def Engine (crc : Bytes → UInt32)
    (H : (op : DiskOp) → Disk → Except VelociError op.Ans → Disk → Prop) (S : Bytes)
    (tried : List CommittedGroup) (p : Pager) (d : Disk) : Prop :=
  ∃ gs, DiskInv crc S gs tried d ∧ PagerInv crc S gs d p ∧
    (Reliable H → d.wal.now = groupsBytes crc gs)

theorem Engine.recoverable {p : Pager} {d : Disk} (h : Engine crc H S tried p d) :
    Recoverable crc S tried d := by
  obtain ⟨gs, hd, -⟩ := h
  exact hd.recoverable

theorem pagesAfter_of_lt {n : Nat} : ∀ {ws : List (Nat × Bytes)}, (∀ w ∈ ws, w.1 < n) →
    pagesAfter n ws = n
  | [], _ => rfl
  | w :: ws, h => by
      have hw := h w List.mem_cons_self
      rw [pagesAfter, List.foldl_cons, max_eq_left (by omega), ← pagesAfter]
      exact pagesAfter_of_lt fun x hx => h x (List.mem_cons_of_mem _ hx)

theorem wp_checkpoint (hH : WithinFaults H) (hJ : ∀ d, Recoverable crc S tried d → J d)
    {p : Pager} {d : Disk} (h : Engine crc H S tried p d) :
    PagerM.wp H J checkpoint p d fun r p' d' => Engine crc H S tried p' d' ∧
      (Reliable H → r = .ok ()) ∧ p'.activeGroup = p.activeGroup := by
  obtain ⟨gs, hd, hp, hlog⟩ := h
  have hJd := hJ _ hd.recoverable
  unfold checkpoint
  refine PagerM.wp_get ?_
  dsimp only
  split
  · exact PagerM.wp_ret rfl hJd ⟨⟨gs, hd, hp, hlog⟩, fun _ => rfl, rfl⟩
  refine PagerM.wp_modify (PagerM.wp_tryCatch (PagerM.wp_bind ?_))
  -- the loop keeps the files recoverable and leaves `committed` enough to finish it
  have hpage : ∀ w ∈ sortedPages p.committed, block pageSize S w.1 = w.2 ∧
      (w.1 + 1) * pageSize ≤ S.length ∧ w.1 < p.numPages := by
    intro w hw
    obtain ⟨page, hpg, hdata⟩ := (mem_sortedPages _).mp hw
    obtain ⟨hb, hl⟩ := hp.committed_page hpg
    exact ⟨hb.trans hdata, hl, hp.lt_numPages hl⟩
  have hsame : ∀ k, pagesAfter p.numPages ((sortedPages p.committed).take k) = p.numPages :=
    fun k => pagesAfter_of_lt fun w hw => (hpage w (List.mem_of_mem_take hw)).2.2
  refine PagerM.wp_mono (wp_writePagesRaw hH (I := fun d => DiskInv crc S gs tried d ∧
    d.data.now ∈ d.data.after ∧ applied d.data.now (sortedPages p.committed) = S ∧
    TailIn p.committed d.data.now)
    (fun d hI => hJ _ hI.1.recoverable) ?_ ?_ ⟨hd, hp.consistent, hp.base, hp.tail⟩) ?_
  · intro w hw
    exact ⟨sortedPages_whole _ w hw, lt_of_lt_of_le (hpage w hw).2.2 hp.bound⟩
  · rintro w hw d n ⟨hdI, hcons, hbase, htail⟩
    obtain ⟨hb, hl, -⟩ := hpage w hw
    refine ⟨hdI.dataWrite hb hl, DiskFile.writeTorn_consistent hcons _ _, ?_, ?_⟩
    · exact writeBlocks_torn pageSize_pos (sortedPages_whole _) hbase hl
        (sortedPages_whole _ w hw) (Or.inr hb) (DiskFile.torn_overwrite _ _ _)
    · obtain ⟨page, hpg, -⟩ := (mem_sortedPages _).mp hw
      exact htail.overwrite (by simp [hpg]) (sortedPages_whole _ w hw) n
  intro r p₁ d₁ hJ₁ ⟨⟨hd₁, hcons₁, hbase₁, htail₁⟩, hwal₁, hR₁, h₁⟩
  have hback : ∀ {d' : Disk} {e : VelociError}, DiskInv crc S gs tried d' →
      d'.data.now ∈ d'.data.after → applied d'.data.now (sortedPages p.committed) = S →
      TailIn p.committed d'.data.now → J d' →
      (Reliable H → (Except.error e : Except VelociError Unit) = .ok ()) →
      PagerM.wp H J (do
          modify fun q => { q with committed := p.committed }
          throw e) { p with committed := ∅ } d' fun r p' d' => Engine crc H S tried p' d' ∧
        (Reliable H → r = .ok ()) ∧ p'.activeGroup = p.activeGroup := by
    intro d' e hd' hcons' hbase' htail' hJ' hR'
    refine PagerM.wp_modify (PagerM.wp_ret rfl hJ' ?_)
    refine ⟨⟨gs, hd', { hp with base := hbase', consistent := hcons', tail := htail' }, ?_⟩, hR', rfl⟩
    exact fun hR => by cases hR' hR
  cases r with
  | error e =>
      obtain ⟨k, rfl⟩ := h₁
      dsimp only at *
      rw [hsame k]
      exact hback hd₁ hcons₁ hbase₁ htail₁ hJ₁ hR₁
  | ok _ =>
      obtain ⟨hnow₁, rfl⟩ := h₁
      have hall := hsame (sortedPages p.committed).length
      rw [List.take_length] at hall
      dsimp only at *
      rw [hall]
      have hS : d₁.data.now = S := hnow₁.trans hp.base
      refine PagerM.wp_bind (PagerM.wp_file hJ₁ fun r d₂ h₂ => ?_)
      have hsync : DiskInv crc S gs tried { d₁ with data := d₁.data.sync } :=
        hd₁.dataSync hcons₁
      have hbase₂ : applied (d₁.data.sync).now (sortedPages p.committed) = S := hbase₁
      cases r with
      | error e =>
          have hR := fun hR : Reliable H => hR.no_error (neverFails_write (by simp)) h₂
          rcases (hH _ _ _ _ h₂).of_dataSync with rfl | ⟨rfl, -⟩
          · have hJ₂ := hJ _ hsync.recoverable
            exact ⟨hJ₂, hback hsync rfl hbase₂ htail₁ hJ₂ fun h => absurd (hR h) id⟩
          · exact ⟨hJ₁, hback hd₁ hcons₁ hbase₁ htail₁ hJ₁ fun h => absurd (hR h) id⟩
      | ok _ =>
          obtain rfl | ⟨-, kind, hk⟩ := (hH _ _ _ _ h₂).of_dataSync
          swap
          · cases hk
          have hJ₂ := hJ _ hsync.recoverable
          have hstable : d₁.data.sync = .stable S := by rw [DiskFile.sync, hS]
          refine ⟨hJ₂, PagerM.wp_mono (wp_truncateWal hH hJ hsync hstable) ?_⟩
          intro r p₃ d₃ hJ₃ ⟨hdata₃, hR₃, h₃⟩
          have hnow₃ : d₃.data = .stable S := hdata₃.trans hstable
          cases r with
          | error e =>
              obtain ⟨hd₃, rfl⟩ := h₃
              refine hback hd₃ (by rw [hnow₃]; rfl) ?_ ?_ hJ₃ hR₃
              · rw [hnow₃, DiskFile.stable_now, ← hS]
                exact hS ▸ hbase₁
              · rw [hnow₃, DiskFile.stable_now, ← hS]
                exact htail₁
          | ok _ =>
              obtain ⟨hd₃, hwal₃, rfl⟩ := h₃
              refine ⟨⟨[], hd₃, ?_, fun _ => by rw [hwal₃]; rfl⟩, hR₃, rfl⟩
              refine hp.with_disk ∅ 0 ?_ ?_ ?_ rfl
              · rw [sortedPages_empty, hnow₃]
                rfl
              · rw [hnow₃]
                rfl
              · rw [hnow₃]
                exact TailIn.of_dvd hp.dvd

/-- The group of an active pager fits the log. -/
theorem PagerInv.group_valid {p : Pager} {d : Disk} (hp : PagerInv crc S gs d p) {id : Nat}
    (hact : p.activeGroup = some id) : CommittedGroup.Valid (walGroup (id, p.pending)) where
  id := hp.activeId id hact
  writes := by
    intro w hw
    refine ⟨?_, sortedPages_whole _ w hw⟩
    obtain ⟨page, hpg, -⟩ := (mem_sortedPages _).mp hw
    have hlt : w.1 < maxPages := lt_of_lt_of_le (hp.pending_lt hpg) hp.bound
    have hmax : maxPages < 256 ^ 8 := by decide
    exact lt_trans hlt hmax

/-- Moving the pending pages to `committed` is applying the group to `Σ`. -/
theorem applied_union (f : Bytes) (m m' : PageMap) :
    applied f (sortedPages (m ∪ m')) = applied (applied f (sortedPages m)) (sortedPages m') := by
  have hget : ∀ q, (m ∪ m')[q]? = m'[q]?.or m[q]? := fun q => Std.ExtTreeMap.getElem?_union
  refine ext_byteAt ?_ fun i => ?_
  · rw [length_applied, length_applied, length_applied, max_assoc]
    congr 1
    refine le_antisymm (endOf_le ?_) (max_le (endOf_le ?_) (endOf_le ?_))
    · intro w hw
      obtain ⟨page, hpg, hdata⟩ := (mem_sortedPages _).mp hw
      rw [hget, Option.or_eq_some_iff] at hpg
      rcases hpg with hpg | ⟨-, hpg⟩
      · exact le_trans (le_endOf ((mem_sortedPages _).mpr ⟨page, hpg, hdata⟩)) (le_max_right _ _)
      · exact le_trans (le_endOf ((mem_sortedPages _).mpr ⟨page, hpg, hdata⟩)) (le_max_left _ _)
    · intro w hw
      obtain ⟨page, hpg, -⟩ := (mem_sortedPages _).mp hw
      obtain ⟨page', hpg'⟩ : ∃ page', (m ∪ m')[w.1]? = some page' := by
        rw [hget, hpg]
        cases m'[w.1]? <;> simp
      exact le_endOf (w := (w.1, page'.data)) ((mem_sortedPages _).mpr ⟨page', hpg', rfl⟩)
    · intro w hw
      obtain ⟨page, hpg, hdata⟩ := (mem_sortedPages _).mp hw
      refine le_endOf ((mem_sortedPages _).mpr ⟨page, ?_, hdata⟩)
      rw [hget, hpg]
      rfl
  · rw [byteAt_writeBlocks pageSize_pos i _ (sortedPages_whole _), lastWrite_sortedPages,
      byteAt_writeBlocks pageSize_pos i _ (sortedPages_whole _), lastWrite_sortedPages,
      byteAt_writeBlocks pageSize_pos i _ (sortedPages_whole _), lastWrite_sortedPages, hget]
    cases m'[i / pageSize]? <;> rfl

/-- The pager once its group is in the log. -/
theorem PagerInv.logged {p : Pager} {d : Disk} (hp : PagerInv crc S gs d p)
    (hsp : p.savepoint = none) {d' : Disk} (hdata : d'.data = d.data)
    {gs' : List CommittedGroup} {len : Nat} (hlen : len = (groupsBytes crc gs').length) :
    PagerInv crc (applied S (sortedPages p.pending)) gs' d'
      (Pager.logged { p with wal := { p.wal with len := len } }) :=
  { hp with
    base := by
      show applied d'.data.now (sortedPages (p.committed ∪ p.pending)) = _
      rw [applied_union, hdata, hp.base]
    consistent := by rw [hdata]; exact hp.consistent
    tail := by
      intro q h1 h2
      rw [hdata] at h1 h2
      show (p.committed ∪ p.pending)[q]? ≠ none
      have hq := hp.tail q h1 h2
      rw [Std.ExtTreeMap.getElem?_union]
      cases p.pending[q]? with
      | none => exact hq
      | some page => simp
    len := hlen
    activeId := by simp [Pager.logged]
    pages := by
      show p.numPages * pageSize =
        (applied (applied S (sortedPages p.pending)) (sortedPages ∅)).length
      rw [sortedPages_empty]
      exact hp.pages
    idle := fun _ => ⟨rfl, hsp⟩
    start := by simp [Pager.logged]
    savepoint := by simp [Pager.logged, hsp]
    cache := by
      intro q page hq
      refine Or.inr ⟨by simp [Pager.logged], ?_⟩
      rw [block_applied]
      rcases hp.cache q page hq with hc | ⟨hc, hb, hl⟩
      · rw [hc, Option.map_some, Option.getD_some]
        exact ⟨rfl, le_length_applied _ hc⟩
      · rw [hc, Option.map_none, Option.getD_none]
        exact ⟨hb, le_trans hl (length_le_applied S (sortedPages_whole _))⟩ }

/-- How an operation that hands the group `g` to the log may end. -/
def OpEnds (crc : Bytes → UInt32)
    (H : (op : DiskOp) → Disk → Except VelociError op.Ans → Disk → Prop) (S : Bytes)
    (tried : List CommittedGroup) (g : Option (Nat × PageMap)) (r : Except VelociError Unit)
    (p' : Pager) (d' : Disk) : Prop :=
  match g with
  | none => Engine crc H S tried p' d'
  | some g => (Reliable H → r = .ok ()) ∧
      match r with
      | .ok _ => Engine crc H (applied S (sortedPages g.2)) [] p' d' ∧ p'.activeGroup = none
      | .error _ => Engine crc H S (walGroup g :: tried) p' d' ∧
          (FailsShort H → Engine crc H S tried p' d')

theorem wp_commitGroup_append (hH : WithinFaults H) {p : Pager} {d : Disk} {id : Nat}
    (h : Engine crc H S tried p d) (hact : p.activeGroup = some id)
    (hne : ¬ p.pending.isEmpty) (hlen : d.wal.now.length = p.wal.len)
    (hJ : ∀ d, Recoverable crc S (walGroup (id, p.pending) :: tried) d → J d) :
    PagerM.wp H J (commitGroup crc) p d (OpEnds crc H S tried (some (id, p.pending))) := by
  obtain ⟨gs, hd, hp, hlog⟩ := h
  have hx := hp.group_valid hact
  have hnow : d.wal.now = groupsBytes crc gs := by
    rcases hd.log with ⟨t, ht⟩ | hnil
    · rw [ht, hp.len, List.length_append] at hlen
      have : t = [] := List.length_eq_zero_iff.mp (by omega)
      rw [ht, this, List.append_nil]
    · rw [hnil, hp.len] at hlen
      rw [hnil]
      exact (List.length_eq_zero_iff.mp hlen.symm).symm
  have hJd : J d := by
    refine hJ d (hd.weaken (fun x hx => List.mem_cons_of_mem _ hx) ?_).recoverable
    intro y hy
    rcases List.mem_cons.mp hy with rfl | hy
    · exact hx
    · exact hd.tried_valid y hy
  unfold commitGroup
  refine PagerM.wp_get ?_
  simp only [hact]
  refine PagerM.wp_modify (PagerM.wp_get ?_)
  dsimp only
  rw [if_neg hne]
  refine PagerM.wp_bind (PagerM.wp_tryCatch (PagerM.wp_wal ?_))
  refine Prog.wp_mono (wp_appendGroup (w := p.wal) hH hx hJ hd hnow hp.len) ?_
  rintro o d₁ hJ₁ ⟨r, w', rfl, hdata₁, hR₁, h₁⟩
  cases r with
  | error e =>
      obtain ⟨hd₁, hshort₁, rfl⟩ := h₁
      have hp₁ : PagerInv crc S gs d₁ { p with savepoint := none } :=
        { hp.endSavepoint with
          base := by rw [hdata₁]; exact hp.base
          consistent := by rw [hdata₁]; exact hp.consistent
          tail := by rw [hdata₁]; exact hp.tail }
      have hact₁ : ({ p with savepoint := none } : Pager).activeGroup ≠ none := by simp [hact]
      refine PagerM.wp_bind (PagerM.wp_tryCatch
        (PagerM.wp_ret (abortGroup_eq hact₁) hJ₁ (PagerM.wp_ret rfl hJ₁ ?_)))
      have hlog₁ : Reliable H → d₁.wal.now = groupsBytes crc gs := fun hR => by cases hR₁ hR
      exact ⟨hR₁, ⟨gs, hd₁, hp₁.abortGroup hact₁, hlog₁⟩,
        fun hS => ⟨gs, hshort₁ hS, hp₁.abortGroup hact₁, hlog₁⟩⟩
  | ok _ =>
      obtain ⟨hd₁, hwal₁, rfl⟩ := h₁
      have hE : Engine crc H (applied S (sortedPages p.pending)) [] (logged { p with
          savepoint := none
          wal := { p.wal with len := (groupsBytes crc (gs ++ [walGroup (id, p.pending)])).length } })
          d₁ := ⟨_, hd₁, hp.endSavepoint.logged rfl hdata₁ rfl, fun _ => by rw [hwal₁]; rfl⟩
      refine PagerM.wp_modify (PagerM.wp_get ?_)
      split
      · refine PagerM.wp_tryCatch (PagerM.wp_mono
          (wp_checkpoint hH (fun d hrec => hJ d (Recoverable.before hrec)) hE) ?_)
        intro r p₂ d₂ hJ₂ ⟨hE₂, hR₂, hact₂⟩
        cases r with
        | ok _ => exact ⟨fun _ => rfl, hE₂, hact₂⟩
        | error e => exact PagerM.wp_ret rfl hJ₂ ⟨fun _ => rfl, hE₂, hact₂⟩
      · exact PagerM.wp_ret rfl hJ₁ ⟨fun _ => rfl, hE, rfl⟩

/-! ## Reading -/

/-- The file as the active group sees it. -/
def newest (S : Bytes) (p : Pager) : Bytes := applied S (sortedPages p.pending)

theorem block_newest {p : Pager} {q : Nat} (h : p.pending[q]? = none) :
    block pageSize (newest S p) q = block pageSize S q := by
  rw [newest, block_applied, h, Option.map_none, Option.getD_none]

theorem block_newest_some {p : Pager} {q : Nat} {page : Page} (h : p.pending[q]? = some page) :
    block pageSize (newest S p) q = page.data := by
  rw [newest, block_applied, h, Option.map_some, Option.getD_some]

/-- What `read_page` answers when no operation fails: the newest version of the page, or
why there is none. -/
def ReadAnswer (S : Bytes) (p : Pager) (d : Disk) (q : Nat) : Except VelociError Page → Prop
  | .ok page => q < p.numPages ∧ page.data = block pageSize (newest S p) q
  | .error e => (p.numPages ≤ q ∧ e = outOfBounds q) ∨
      (q < p.numPages ∧ e = Disk.unexpectedEof ∧ d.data.now.length < (q + 1) * pageSize ∧
        block pageSize (newest S p) q = Page.new.data)

theorem block_past_end {f : Bytes} {q : Nat} (h : f.length ≤ q * pageSize) :
    block pageSize f q = Page.new.data := by
  refine ext_byteAt (by rw [length_block, Page.new.size]) fun i => ?_
  rw [byteAt_block, Page.new, byteAt_replicate_zero]
  split
  · exact byteAt_of_length_le (by omega)
  · rfl

/-- Caching the newest version of a page. -/
theorem PagerInv.cachePage {p : Pager} {d : Disk} (hp : PagerInv crc S gs d p) {q : Nat}
    {page : Page} (hno : p.pending[q]? = none) (hb : page.data = block pageSize S q)
    (hl : (q + 1) * pageSize ≤ S.length) :
    PagerInv crc S gs d (Pager.cachePage none q page p) :=
  { hp with
    cache := by
      intro q' page' hq'
      rcases cachePage_getElem? (p := p) hq' with ⟨rfl, rfl⟩ | ⟨-, hq'⟩
      · exact Or.inr ⟨hno, hb, hl⟩
      · exact hp.cache q' page' hq' }

theorem wp_readPage {H' : (op : DiskOp) → Disk → Except VelociError op.Ans → Disk → Prop}
    (hH : WithinFaults H) (hJ : ∀ d, Recoverable crc S tried d → J d)
    {p : Pager} {d : Disk} (h : Engine crc H' S tried p d) (q : Nat) :
    PagerM.wp H J (readPage q) p d fun r p' d' => Engine crc H' S tried p' d' ∧
      (Reliable H → ReadAnswer S p d q r) := by
  obtain ⟨gs, hd, hp, hlog⟩ := h
  have hJd := hJ _ hd.recoverable
  have hE : Engine crc H' S tried p d := ⟨gs, hd, hp, hlog⟩
  unfold readPage
  refine PagerM.wp_get ?_
  cases hpend : p.pending[q]? with
  | some page =>
      exact PagerM.wp_ret rfl hJd ⟨hE, fun _ => ⟨hp.pending_lt hpend, (block_newest_some hpend).symm⟩⟩
  | none =>
  have hnew := block_newest (S := S) hpend
  cases hcache : p.cache[q]? with
  | some page =>
      obtain hc | ⟨-, hb, hl⟩ := hp.cache q page hcache
      · rw [hpend] at hc
        cases hc
      · exact PagerM.wp_ret rfl hJd ⟨hE, fun _ => ⟨hp.lt_numPages hl, hb.trans hnew.symm⟩⟩
  | none =>
  cases hcom : p.committed[q]? with
  | some page =>
      obtain ⟨hb, hl⟩ := hp.committed_page hcom
      refine PagerM.wp_ret rfl hJd ?_
      exact ⟨⟨gs, hd, hp.cachePage hpend hb.symm hl, hlog⟩,
        fun _ => ⟨hp.lt_numPages hl, hb.symm.trans hnew.symm⟩⟩
  | none =>
  -- the page comes from the data file
  have hfile : block pageSize S q = block pageSize d.data.now q := by
    rw [← hp.base, block_applied, hcom, Option.map_none, Option.getD_none]
  dsimp only
  split
  · rename_i hle
    exact PagerM.wp_ret rfl hJd ⟨hE, fun _ => Or.inl ⟨hle, rfl⟩⟩
  · rename_i hlt
    have hmax : q < maxPages := lt_of_lt_of_le (Nat.lt_of_not_le hlt) hp.bound
    rw [offset_eq hmax]
    refine PagerM.wp_bind (PagerM.wp_file hJd fun r d₁ h₁ => ?_)
    obtain rfl := (hH _ _ _ _ h₁).of_dataSeek
    refine ⟨hJd, ?_⟩
    cases r with
    | error e =>
        exact ⟨hE, fun hR => absurd h₁ (hR.no_error (neverFails_write (by simp)))⟩
    | ok _ =>
        refine PagerM.wp_bind (PagerM.wp_file hJd fun r d₂ h₂ => ?_)
        have hread := hH _ _ _ _ h₂
        by_cases hfit : q * pageSize + pageSize ≤ d₁.data.now.length
        · obtain ⟨rfl, rfl⟩ : r = .ok (window d₁.data.now (q * pageSize) pageSize) ∧ d₂ = d₁ := by
            cases hread
            simp [Disk.perform, hfit]
          refine ⟨hJd, ?_⟩
          dsimp only
          have hl : (q + 1) * pageSize ≤ S.length := by
            rw [← hp.base, Nat.succ_mul]
            exact le_trans hfit (length_le_applied _ (sortedPages_whole _))
          rw [dif_pos (length_window _ _ _)]
          have hwin : window d₂.data.now (q * pageSize) pageSize = block pageSize S q := by
            rw [hfile, block]
          obtain ⟨page, hpage⟩ : ∃ page : Page,
              page = ⟨window d₂.data.now (q * pageSize) pageSize, length_window _ _ _⟩ := ⟨_, rfl⟩
          have hdata : page.data = block pageSize S q := (congrArg Page.data hpage).trans hwin
          rw [← hpage]
          exact PagerM.wp_ret rfl hJd ⟨⟨gs, hd, hp.cachePage hpend hdata hl, hlog⟩,
            fun _ => ⟨hp.lt_numPages hl, hdata.trans hnew.symm⟩⟩
        · obtain ⟨rfl, rfl⟩ : r = .error Disk.unexpectedEof ∧ d₂ = d₁ := by
            cases hread
            simp [Disk.perform, hfit]
          refine ⟨hJd, hE, fun _ => Or.inr ⟨Nat.lt_of_not_le hlt, rfl, ?_, ?_⟩⟩
          · rw [Nat.succ_mul]
            omega
          · rw [hnew, hfile]
            refine block_past_end (Nat.le_of_not_lt fun hin => ?_)
            exact hp.tail q hin (by rw [Nat.succ_mul]; omega) hcom

/-! ## Every operation -/

theorem wp_writePage_active (hJ : ∀ d, Recoverable crc S tried d → J d) {p : Pager} {d : Disk}
    (h : Engine crc H S tried p d) (hact : p.activeGroup ≠ none) {id : Nat}
    (hid : id < maxPages) (page : Page) :
    PagerM.wp H J (writePage crc id page) p d fun _ p' d' => Engine crc H S tried p' d' := by
  obtain ⟨gs, hd, hp, hlog⟩ := h
  obtain ⟨g, hg⟩ := Option.ne_none_iff_exists'.mp hact
  unfold writePage
  refine PagerM.wp_get ?_
  simp only [hg, Option.isNone_some, Bool.false_eq_true, if_false]
  exact PagerM.wp_ret rfl (hJ _ hd.recoverable) ⟨gs, hd, hp.bufferPage hact hid page, hlog⟩

theorem wp_writePage_auto (hH : WithinFaults H) {p : Pager} {d : Disk} {id : Nat} {page : Page}
    (h : Engine crc H S tried p d) (hact : p.activeGroup = none) (hid : id < maxPages)
    (hlen : d.wal.now.length = p.wal.len)
    (hJ : ∀ d, Recoverable crc S
      (walGroup (p.wal.nextGroupId, p.pending.insert id page) :: tried) d → J d) :
    PagerM.wp H J (writePage crc id page) p d
      (OpEnds crc H S tried (some (p.wal.nextGroupId, p.pending.insert id page))) := by
  obtain ⟨gs, hd, hp, hlog⟩ := h
  have hbegun := hp.beginGroup hact
  have hbuf := hbegun.bufferPage (by simp [begun]) hid page
  have hne : ¬ (bufferPage id page (begun p)).pending.isEmpty := by
    show ¬ (p.pending.insert id page).isEmpty
    simp
  have hcommit := wp_commitGroup_append (J := J) hH
    (p := bufferPage id page (begun p)) ⟨gs, hd, hbuf, hlog⟩ rfl hne hlen hJ
  unfold writePage
  refine PagerM.wp_get ?_
  simp only [hact, Option.isNone_none, if_true]
  refine PagerM.wp_bind (PagerM.wp_ret (beginGroup_eq hact) (Prog.wp_here hcommit) ?_)
  exact PagerM.wp_modify hcommit

theorem wp_flush (hH : WithinFaults H) (hJ : ∀ d, Recoverable crc S tried d → J d)
    {p : Pager} {d : Disk} (h : Engine crc H S tried p d) :
    PagerM.wp H J flush p d fun _ p' d' => Engine crc H S tried p' d' := by
  have hrest : ∀ {p : Pager}, Engine crc H S tried p d →
      PagerM.wp H J (do checkpoint; PagerM.file .dataSync) p d
        fun _ p' d' => Engine crc H S tried p' d' := by
    intro p h
    refine PagerM.wp_bind (PagerM.wp_mono (wp_checkpoint hH hJ h) ?_)
    rintro r p₁ d₁ hJ₁ ⟨⟨gs, hd₁, hp₁, hlog₁⟩, -, -⟩
    cases r with
    | error e => exact ⟨gs, hd₁, hp₁, hlog₁⟩
    | ok _ =>
        refine PagerM.wp_file hJ₁ fun r d₂ h₂ => ?_
        rcases (hH _ _ _ _ h₂).of_dataSync with rfl | ⟨rfl, -⟩
        · have hd₂ := hd₁.dataSync hp₁.consistent
          exact ⟨hJ _ hd₂.recoverable, gs, hd₂,
            { hp₁ with base := hp₁.base, consistent := rfl, tail := hp₁.tail }, hlog₁⟩
        · exact ⟨hJ₁, gs, hd₁, hp₁, hlog₁⟩
  have hJd := hJ _ h.recoverable
  unfold flush
  refine PagerM.wp_get ?_
  by_cases hact : p.activeGroup = none
  · simp only [hact, Option.isSome_none, Bool.false_eq_true]
    exact hrest h
  · obtain ⟨g, hg⟩ := Option.ne_none_iff_exists'.mp hact
    simp only [hg, Option.isSome_some]
    refine PagerM.wp_bind (PagerM.wp_tryCatch (PagerM.wp_ret (abortGroup_eq hact) hJd ?_))
    obtain ⟨gs, hd, hp, hlog⟩ := h
    exact hrest ⟨gs, hd, hp.abortGroup hact, hlog⟩

/-- An operation keeps the files recoverable throughout, and the engine in order. -/
theorem wp_method (hH : WithinFaults H) {p : Pager} {d : Disk} (h : Engine crc H S tried p d)
    (op : PagerOp) (hrange : ∀ w, op.autoPage p = some w → w.1 < maxPages)
    (hlen : op.group p ≠ none → d.wal.now.length = p.wal.len) :
    PagerM.wp H (Recoverable crc S (((op.group p).map walGroup).toList ++ tried))
      (op.method crc) p d (OpEnds crc H S tried (op.group p)) := by
  -- operations that append nothing
  have hplain : op.group p = none → PagerM.wp H (Recoverable crc S tried) (op.method crc) p d
        (fun _ p' d' => Engine crc H S tried p' d') →
      PagerM.wp H (Recoverable crc S (((op.group p).map walGroup).toList ++ tried))
        (op.method crc) p d (OpEnds crc H S tried (op.group p)) := by
    intro hg hm
    rw [hg]
    exact hm
  have hquiet : (∀ w, op.autoPage p ≠ some w) → op ≠ .commitGroup → op.group p = none := by
    intro hno hnc
    cases op <;> simp_all [PagerOp.group, PagerOp.autoPage] <;> cases p.activeGroup <;> simp
  have hJd : Recoverable crc S tried d := h.recoverable
  obtain ⟨gs, hd, hp, hlog⟩ := id h
  cases op with
  | beginGroup =>
      refine hplain (hquiet (by simp [PagerOp.autoPage]) (by simp)) (PagerM.wp_bind ?_)
      cases hg : p.activeGroup with
      | none =>
          refine PagerM.wp_ret (beginGroup_eq hg) hJd (PagerM.wp_ret rfl hJd ?_)
          exact ⟨gs, hd, hp.beginGroup hg, hlog⟩
      | some id => exact PagerM.wp_ret (beginGroup_busy hg) hJd h
  | writePage id page =>
      have hid : id < maxPages := hrange (id, page) rfl
      cases hg : p.activeGroup with
      | none =>
          have hgroup : (PagerOp.writePage id page).group p =
              some (p.wal.nextGroupId, p.pending.insert id page) := by
            simp [PagerOp.group, PagerOp.autoPage, hg]
          rw [hgroup] at hlen ⊢
          exact wp_writePage_auto hH h hg hid (hlen (by simp)) fun _ h => h
      | some g =>
          refine hplain (by simp [PagerOp.group, hg]) ?_
          exact wp_writePage_active (fun _ h => h) h (by simp [hg]) hid page
  | allocatePage =>
      have hid : p.numPages < maxPages := hrange (p.numPages, Page.new) rfl
      cases hg : p.activeGroup with
      | none =>
          have hgroup : PagerOp.allocatePage.group p =
              some (p.wal.nextGroupId, p.pending.insert p.numPages Page.new) := by
            simp [PagerOp.group, PagerOp.autoPage, hg]
          rw [hgroup] at hlen ⊢
          refine PagerM.wp_bind (PagerM.wp_get (PagerM.wp_bind (PagerM.wp_mono
            (wp_writePage_auto hH h hg hid (hlen (by simp)) fun _ h => h) ?_)))
          intro r p' d' hJ' hend
          cases r with
          | error e => exact hend
          | ok _ => exact PagerM.wp_ret rfl hJ' (PagerM.wp_ret rfl hJ' hend)
      | some g =>
          refine hplain (by simp [PagerOp.group, hg]) ?_
          refine PagerM.wp_bind (PagerM.wp_get (PagerM.wp_bind (PagerM.wp_mono
            (wp_writePage_active (fun _ h => h) h (by simp [hg]) hid Page.new) ?_)))
          intro r p' d' hJ' hend
          cases r with
          | error e => exact hend
          | ok _ => exact PagerM.wp_ret rfl hJ' (PagerM.wp_ret rfl hJ' hend)
  | readPage q =>
      refine hplain (hquiet (by simp [PagerOp.autoPage]) (by simp)) ?_
      refine PagerM.wp_bind (PagerM.wp_mono (wp_readPage hH (fun _ h => h) h q) ?_)
      rintro r p' d' hJ' ⟨hE, -⟩
      cases r with
      | error e => exact hE
      | ok _ => exact PagerM.wp_ret rfl hJ' hE
  | beginSavepoint =>
      refine hplain (hquiet (by simp [PagerOp.autoPage]) (by simp)) ?_
      have heq := beginSavepoint_eq (p := p)
      split at heq
      · exact PagerM.wp_ret heq hJd h
      · rename_i hact
        split at heq
        · exact PagerM.wp_ret heq hJd h
        · exact PagerM.wp_ret heq hJd ⟨gs, hd, hp.beginSavepoint hact, hlog⟩
  | releaseSavepoint =>
      refine hplain (hquiet (by simp [PagerOp.autoPage]) (by simp)) ?_
      exact PagerM.wp_ret rfl hJd ⟨gs, hd, hp.endSavepoint, hlog⟩
  | rollbackToSavepoint =>
      refine hplain (hquiet (by simp [PagerOp.autoPage]) (by simp)) ?_
      have heq := rollbackToSavepoint_eq (p := p)
      split at heq
      · exact PagerM.wp_ret heq hJd h
      · rename_i sp hsp
        exact PagerM.wp_ret heq hJd ⟨gs, hd, hp.rollback hsp, hlog⟩
  | commitGroup =>
      cases hg : p.activeGroup with
      | none =>
          refine hplain (by simp [PagerOp.group, PagerOp.autoPage, hg]) ?_
          exact PagerM.wp_ret (commitGroup_idle hg) hJd h
      | some id =>
          by_cases he : p.pending.isEmpty
          · refine hplain (by simp [PagerOp.group, hg, he]) ?_
            refine PagerM.wp_ret (commitGroup_empty hg he) hJd ⟨gs, hd, hp.endGroup ?_, hlog⟩
            simpa using he
          · have hgroup : PagerOp.commitGroup.group p = some (id, p.pending) := by
              simp only [PagerOp.group, hg, he]
              rfl
            rw [hgroup] at hlen ⊢
            exact wp_commitGroup_append hH h hg he (hlen (by simp)) fun _ h => h
  | abortGroup =>
      refine hplain (hquiet (by simp [PagerOp.autoPage]) (by simp)) ?_
      by_cases hg : p.activeGroup = none
      · exact PagerM.wp_ret (abortGroup_idle hg) hJd h
      · exact PagerM.wp_ret (abortGroup_eq hg) hJd ⟨gs, hd, hp.abortGroup hg, hlog⟩
  | checkpoint =>
      refine hplain (hquiet (by simp [PagerOp.autoPage]) (by simp)) ?_
      exact PagerM.wp_mono (wp_checkpoint hH (fun _ h => h) h) fun r p' d' _ h => h.1
  | flush =>
      refine hplain (hquiet (by simp [PagerOp.autoPage]) (by simp)) ?_
      exact wp_flush hH (fun _ h => h) h

end VelociDB
