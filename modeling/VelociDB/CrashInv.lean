/-
# The invariant of runs with crashes

`SysInv` says of every state of a run that there is a file `Σ` the answers remembered in
`last` and `promised` belong to, that a live pager is in order over it (`Engine`), and
that a crashed one can be recovered to it, or to it and one group of `suspects`: the
group being committed at the crash, or one whose commit failed with all of its bytes
written.  One step keeps it (`sysInv_step`).
-/
import VelociDB.Reopen

namespace VelociDB

open Bytes Blocks Wal PagerSys Snapshot Pager

variable {H : (op : DiskOp) → Disk → Except VelociError op.Ans → Disk → Prop}
  {crc : Bytes → UInt32} {S : Bytes} {suspects : List (Nat × PageMap)}

/-! ## Snapshots and `Σ` -/

/-- The answers `v` are those of a pager over `Σ`; a page below the end that was never
written may be unreadable. -/
structure Shows (S : Bytes) (v : Snapshot) : Prop where
  pages : v.numPages * pageSize = S.length
  past : ∀ q, v.numPages ≤ q → v.page q = .error (outOfBounds q)
  page : ∀ q, q < v.numPages →
    (∃ page, v.page q = .ok page ∧ page.data = block pageSize S q) ∨
      (v.page q = .error Disk.unexpectedEof ∧ block pageSize S q = Page.new.data)

theorem Shows.recovered {v₀ v : Snapshot} (h₀ : Shows S v₀) (h : Shows S v)
    (hfull : ∀ q, q < v.numPages → ∃ page, v.page q = .ok page) : Recovered v₀ v := by
  have hn : v.numPages = v₀.numPages :=
    Nat.eq_of_mul_eq_mul_right pageSize_pos (h.pages.trans h₀.pages.symm)
  refine ⟨hn, fun q => ?_⟩
  by_cases hq : q < v.numPages
  · obtain ⟨page, hok⟩ := hfull q hq
    have hdata : page.data = block pageSize S q := by
      rcases h.page q hq with ⟨page', hok', hd⟩ | ⟨herr, -⟩
      · rw [hok] at hok'
        exact Except.ok.inj hok' ▸ hd
      · rw [hok] at herr
        cases herr
    rw [hn] at hq
    rcases h₀.page q hq with ⟨page₀, hok₀, hd₀⟩ | ⟨herr, hzero⟩
    · exact Or.inl (by rw [hok, hok₀, Page.ext (hdata.trans hd₀.symm)])
    · exact Or.inr ⟨hq, herr, by rw [hok, Page.ext (hdata.trans hzero)]⟩
  · have hq₀ : v₀.numPages ≤ q := by omega
    exact Or.inl ((h.past q (by omega)).trans (h₀.past q hq₀).symm)

theorem Shows.plus {v : Snapshot} (h : Shows S v) (m : PageMap) :
    Shows (applied S (sortedPages m)) (v.plus m) := by
  have hpages : (v.plus m).numPages * pageSize = (applied S (sortedPages m)).length := by
    rw [length_applied, ← h.pages]
    exact pagesAfter_mul _ _
  have hle : v.numPages ≤ (v.plus m).numPages := by
    refine Nat.le_of_mul_le_mul_right ?_ pageSize_pos
    rw [hpages, h.pages]
    exact length_le_applied S (sortedPages_whole m)
  have hin : ∀ q page, m[q]? = some page → q < (v.plus m).numPages := by
    intro q page hq
    refine Nat.lt_of_succ_le (Nat.le_of_mul_le_mul_right ?_ pageSize_pos)
    rw [hpages]
    exact le_length_applied m hq
  refine ⟨hpages, fun q hq => ?_, fun q hq => ?_⟩
  · have hno : m[q]? = none := by
      cases hm : m[q]? with
      | none => rfl
      | some page => exact absurd (hin q page hm) (by omega)
    rw [plus_page_none hno, if_neg (by omega)]
    exact h.past q (by omega)
  · rw [block_applied]
    cases hm : m[q]? with
    | some page => exact Or.inl ⟨page, plus_page_some hm, rfl⟩
    | none =>
        rw [Option.map_none, Option.getD_none, plus_page_none hm]
        by_cases hnew : v.numPages ≤ q
        · rw [if_pos ⟨hnew, hq⟩]
          refine Or.inr ⟨rfl, block_past_end ?_⟩
          rw [← h.pages]
          exact Nat.mul_le_mul_right _ hnew
        · rw [if_neg (by omega)]
          exact h.page q (by omega)

theorem shows_empty : Shows [] Snapshot.empty :=
  ⟨by simp [Snapshot.empty], fun _ _ => rfl, by simp [Snapshot.empty]⟩

/-- What a pager in order answers. -/
theorem readAnswer {tried : List CommittedGroup} {p : Pager} {d : Disk}
    (h : Engine crc H S tried p d) (q : Nat) :
    ReadAnswer S p d q ((p.snapshot d).page q) := by
  have hwp := wp_readPage (H := Disk.Sound) (J := fun _ => True) within_sound
    (fun _ _ => trivial) h q
  have hrun := Prog.exec_run Disk.perform (readPage q p) d
  obtain ⟨r, p', ho, -, hans⟩ := PagerM.wp_exec hwp hrun
  have hval : (p.snapshot d).page q = r := by
    show (PagerM.exec (readPage q) p d).1 = r
    unfold PagerM.exec
    rcases hx : (readPage q p).run Disk.perform d with ⟨o, d'⟩
    rw [hx] at ho
    dsimp only at ho
    subst ho
    rfl
  rw [hval]
  exact hans reliable_sound

theorem Engine.shows {tried : List CommittedGroup} {p : Pager} {d : Disk}
    (h : Engine crc H S tried p d) (hact : p.activeGroup = none) : Shows S (p.snapshot d) := by
  have hans := readAnswer h
  obtain ⟨gs, -, hp, -⟩ := h
  have hnew : newest S p = S := by
    rw [newest, (hp.idle hact).1, sortedPages_empty]
    rfl
  refine ⟨?_, fun q hq => ?_, fun q hq => ?_⟩
  · have := hp.pages
    rw [(hp.idle hact).1, sortedPages_empty] at this
    exact this
  · have hq' : p.numPages ≤ q := hq
    have ha := hans q
    rcases hv : (p.snapshot d).page q with e | page
    · rw [hv] at ha
      rcases ha with ⟨-, rfl⟩ | ⟨hlt, -⟩
      · rfl
      · omega
    · rw [hv] at ha
      have := ha.1
      omega
  · have hq' : q < p.numPages := hq
    have ha := hans q
    rcases hv : (p.snapshot d).page q with e | page
    · rw [hv] at ha
      rcases ha with ⟨hle, -⟩ | ⟨-, rfl, -, hz⟩
      · omega
      · exact Or.inr ⟨rfl, hnew ▸ hz⟩
    · rw [hv] at ha
      exact Or.inl ⟨page, rfl, hnew ▸ ha.2⟩

/-- A pager just opened can read every page. -/
theorem Engine.full {tried : List CommittedGroup} {p : Pager} {d : Disk}
    (h : Engine crc H S tried p d) (hact : p.activeGroup = none) (hnow : d.data.now = S) (q : Nat)
    (hq : q < p.numPages) : ∃ page, (p.snapshot d).page q = .ok page := by
  have ha := readAnswer h q
  have hpages := (h.shows hact).pages
  have hle : (q + 1) * pageSize ≤ p.numPages * pageSize := Nat.mul_le_mul_right _ hq
  rcases hv : (p.snapshot d).page q with e | page
  · rw [hv] at ha
    rcases ha with ⟨hle', -⟩ | ⟨-, -, hlt, -⟩
    · omega
    · rw [hnow, ← hpages] at hlt
      exact absurd hle (Nat.not_le_of_lt hlt)
  · exact ⟨page, rfl⟩

/-! ## The invariant of a run -/

/-- A group the pager may hand to the log. -/
structure GroupFits (g : Nat × PageMap) : Prop where
  valid : CommittedGroup.Valid (walGroup g)
  range : ∀ w ∈ sortedPages g.2, w.1 < maxPages

/-- A file the pager can manage. -/
structure FileFits (S : Bytes) : Prop where
  dvd : pageSize ∣ S.length
  bound : S.length ≤ maxPages * pageSize

theorem FileFits.applied (h : FileFits S) {g : Nat × PageMap} (hg : GroupFits g) :
    FileFits (applied S (sortedPages g.2)) where
  dvd := by
    rw [length_applied]
    rcases max_choice S.length (endOf pageSize (sortedPages g.2)) with hm | hm
    · rw [hm]
      exact h.dvd
    · rw [hm]
      exact dvd_endOf _
  bound := by
    rw [length_applied]
    exact max_le h.bound (endOf_le fun w hw => Nat.mul_le_mul_right _ (hg.range w hw))

/-- What holds in every state of a run.  `suspects` are the groups whose commit failed
and which may come back. -/
structure SysInv (H : (op : DiskOp) → Disk → Except VelociError op.Ans → Disk → Prop)
    (crc : Bytes → UInt32) (s : PagerSys) (S : Bytes) (suspects : List (Nat × PageMap)) :
    Prop where
  fits : FileFits S
  last : Shows S s.last
  promised : Shows S s.promised
  groups : ∀ g ∈ s.flying.toList ++ suspects, GroupFits g
  sub : ∀ g ∈ suspects, g ∈ s.failed
  short : FailsShort H → suspects = []
  up : ∀ p, s.pager = some p → s.flying = none ∧ Engine crc H S (suspects.map walGroup) p s.disk
  down : s.pager = none → ∃ f w, s.disk = ⟨.stable f, .stable w⟩ ∧
    Recoverable crc S ((s.flying.toList ++ suspects).map walGroup) s.disk

theorem sysInv_init : SysInv H crc PagerSys.init [] [] where
  fits := ⟨⟨0, by simp⟩, by simp⟩
  last := shows_empty
  promised := shows_empty
  groups := by simp [PagerSys.init]
  sub := by simp
  short := fun _ => rfl
  up := by simp [PagerSys.init]
  down := by
    intro _
    refine ⟨[], [], rfl, ?_⟩
    rintro f rfl w rfl
    exact ⟨[], decode_nil, by simp, Or.inl rfl⟩

/-- Whatever a crash leaves of recoverable files is recoverable. -/
theorem Recoverable.crashed {tried : List CommittedGroup} {d d' : Disk}
    (h : Recoverable crc S tried d) (hc : Disk.Crashed d d') :
    (∃ f w, d' = ⟨.stable f, .stable w⟩) ∧ Recoverable crc S tried d' := by
  obtain ⟨f, hf, w, hw, rfl⟩ := hc
  refine ⟨⟨f, w, rfl⟩, ?_⟩
  rintro f' rfl w' rfl
  exact h _ hf _ hw

/-- The group an operation hands to the log fits. -/
theorem Engine.group_fits {tried : List CommittedGroup} {p : Pager} {d : Disk}
    (h : Engine crc H S tried p d) {op : PagerOp} {g : Nat × PageMap}
    (hrange : ∀ w, op.autoPage p = some w → w.1 < maxPages) (hg : op.group p = some g) :
    GroupFits g := by
  obtain ⟨gs, -, hp, -⟩ := h
  have hinv : ∃ p' : Pager, PagerInv crc S gs d p' ∧ p'.activeGroup = some g.1 ∧
      p'.pending = g.2 := by
    cases hact : p.activeGroup with
    | some id =>
        cases op with
        | commitGroup =>
            simp only [PagerOp.group, hact] at hg
            split at hg
            · cases hg
            · obtain rfl := Option.some.inj hg
              exact ⟨p, hp, hact, rfl⟩
        | _ => simp [PagerOp.group, hact] at hg
    | none =>
        simp only [PagerOp.group, hact, Option.map_eq_some_iff] at hg
        obtain ⟨w, hw, rfl⟩ := hg
        exact ⟨Pager.bufferPage w.1 w.2 (begun p),
          (hp.beginGroup hact).bufferPage (by simp [begun]) (hrange w hw) w.2, rfl, rfl⟩
  obtain ⟨p', hp', hact, hpend⟩ := hinv
  have hvalid := hp'.group_valid hact
  rw [hpend] at hvalid
  refine ⟨hvalid, fun w hw => ?_⟩
  obtain ⟨page, hpg, -⟩ := (mem_sortedPages _).mp hw
  exact lt_of_lt_of_le (hp'.pending_lt (hpend ▸ hpg)) hp'.bound

/-- Recovering one of the candidates is recoverability. -/
theorem Recoverable.candidate {tried : List CommittedGroup} {S' : Bytes} {d : Disk}
    (h : Recoverable crc S' [] d) (hS : S' = S ∨ ∃ x ∈ tried, S' = applied S x.writes) :
    Recoverable crc S tried d := by
  intro f hf w hw
  obtain ⟨gs, hdec, hval, heq | ⟨x, hx, -⟩⟩ := h f hf w hw
  · refine ⟨gs, hdec, hval, ?_⟩
    rw [heq]
    exact hS
  · cases hx

/-- What `Pager::new` works on after a crash, and what it will make of it. -/
theorem SysInv.target {s : PagerSys} (h : SysInv H crc s S suspects) (hdown : s.pager = none) :
    ∃ S' f w gs, s.disk.data = .stable f ∧ s.disk.wal = .stable w ∧ decode crc w = .ok gs ∧
      (∀ g ∈ gs, CommittedGroup.Valid g) ∧ applied f (allWrites gs) = S' ∧ FileFits S' ∧
      (S' = S ∨ ∃ x ∈ s.flying.toList ++ suspects, S' = applied S (sortedPages x.2)) := by
  obtain ⟨f, w, hdisk, hrec⟩ := h.down hdown
  have hf : f ∈ s.disk.data.after := by rw [hdisk]; rfl
  have hw : w ∈ s.disk.wal.after := by rw [hdisk]; rfl
  obtain ⟨gs, hdec, hval, hS⟩ := hrec f hf w hw
  refine ⟨_, f, w, gs, by rw [hdisk], by rw [hdisk], hdec, hval, rfl, ?_⟩
  rcases hS with hS | ⟨x, hx, hS⟩
  · exact ⟨hS ▸ h.fits, Or.inl hS⟩
  · obtain ⟨g, hg, rfl⟩ := List.mem_map.mp hx
    exact ⟨hS ▸ h.fits.applied (h.groups g hg), Or.inr ⟨g, hg, hS⟩⟩

theorem ended_inv {s : PagerSys} {p p' : Pager} {op : PagerOp} {r : Except VelociError Unit}
    {d' : Disk} (h : SysInv H crc s S suspects) (hp : s.pager = some p)
    (hfits : ∀ g, op.group p = some g → GroupFits g)
    (hend : OpEnds crc H S (suspects.map walGroup) (op.group p) r p' d') :
    ∃ S' suspects', SysInv H crc (s.ended (op.group p) r p' d') S' suspects' := by
  have hfly := (h.up p hp).1
  cases hg : op.group p with
  | none =>
      rw [hg] at hend
      refine ⟨S, suspects, { h with up := ?_, down := by simp [PagerSys.ended] }⟩
      intro q hq
      obtain rfl := Option.some.inj hq
      exact ⟨hfly, hend⟩
  | some g =>
      rw [hg] at hend
      obtain ⟨hR, hend⟩ := hend
      cases r with
      | ok _ =>
          obtain ⟨hE, hact⟩ := hend
          refine ⟨_, [], ⟨h.fits.applied (hfits g hg), hE.shows hact, ?_, ?_, by simp,
            fun _ => rfl, ?_, by simp [PagerSys.ended]⟩⟩
          · show Shows _ ((s.acked ++ [g]).foldl (fun v g => v.plus g.2) s.base)
            rw [List.foldl_append]
            exact h.promised.plus g.2
          · simp [PagerSys.ended, hfly]
          · intro q hq
            obtain rfl := Option.some.inj hq
            exact ⟨hfly, hE⟩
      | error e =>
          obtain ⟨hE, hshort⟩ := hend
          have hflying : (s.ended (some g) (.error e) p' d').flying.toList = [] := by
            simp [PagerSys.ended, hfly]
          by_cases hS : FailsShort H
          · -- the bytes of the group are not all there: it will not come back
            refine ⟨S, suspects, ⟨h.fits, h.last, h.promised, ?_, ?_, h.short, ?_,
              by simp [PagerSys.ended]⟩⟩
            · rw [hflying, h.short hS]
              simp
            · exact fun x hx => List.mem_cons_of_mem _ (h.sub x hx)
            · intro q hq
              obtain rfl := Option.some.inj hq
              exact ⟨hfly, hshort hS⟩
          · refine ⟨S, g :: suspects, ⟨h.fits, h.last, h.promised, ?_, ?_,
              fun hS' => absurd hS' hS, ?_, by simp [PagerSys.ended]⟩⟩
            · intro x hx
              rw [hflying, List.nil_append] at hx
              rcases List.mem_cons.mp hx with rfl | hx
              · exact hfits _ hg
              · exact h.groups x (List.mem_append_right _ hx)
            · intro x hx
              rcases List.mem_cons.mp hx with rfl | hx
              · exact List.mem_cons_self
              · exact List.mem_cons_of_mem _ (h.sub x hx)
            · intro q hq
              obtain rfl := Option.some.inj hq
              exact ⟨hfly, hE⟩

/-- One step keeps the invariant, as long as its pages are in range and an append
starts where the log ends. -/
theorem sysInv_step (hH : WithinFaults H) {s s' : PagerSys} {a : Act}
    (h : SysInv H crc s S suspects)
    (hrange : InRange s a) (hin : Reliable H ∨ InStep s a) (hstep : Step H crc s a s') :
    ∃ S' suspects', SysInv H crc s' S' suspects' := by
  have hsync : ∀ {p op}, s.pager = some p → (a = .run op ∨ a = .crash op) →
      op.group p ≠ none → s.disk.wal.now.length = p.wal.len := by
    intro p op hp ha hg
    rcases hin with hR | hin
    · obtain ⟨gs, -, hpi, hlog⟩ := (h.up p hp).2
      rw [hlog hR, hpi.len]
    · rcases ha with rfl | rfl
      · exact hin p hp hg
      · exact hin p hp hg
  cases hstep with
  | @run p p' op r d' hp hx =>
      obtain ⟨-, hE⟩ := h.up p hp
      have hr : ∀ w, op.autoPage p = some w → w.1 < maxPages := fun w => hrange p w hp
      have hwp := wp_method hH hE op hr (hsync hp (Or.inl rfl))
      obtain ⟨r', q, heq, hend⟩ := PagerM.wp_exec hwp hx
      obtain ⟨rfl, rfl⟩ := Prod.mk.inj (Except.ok.inj heq)
      exact ended_inv h hp (fun g hg => hE.group_fits hr hg) hend
  | @crash p op d' d'' hp hx hc =>
      obtain ⟨hfly, hE⟩ := h.up p hp
      have hr : ∀ w, op.autoPage p = some w → w.1 < maxPages := fun w => hrange p w hp
      have hwp := wp_method hH hE op hr (hsync hp (Or.inr rfl))
      obtain ⟨⟨f, w, hdisk⟩, hrec⟩ := (Prog.wp_stops hx hwp).crashed hc
      refine ⟨S, suspects, ⟨h.fits, h.last, h.promised, ?_, h.sub, h.short, by simp,
        fun _ => ⟨f, w, hdisk, ?_⟩⟩⟩
      · intro g hg
        rcases List.mem_append.mp hg with hg | hg
        · exact hE.group_fits hr (Option.mem_toList.mp hg)
        · exact h.groups g (List.mem_append_right _ hg)
      · have htried : ((op.group p).toList ++ suspects).map walGroup =
            ((op.group p).map walGroup).toList ++ suspects.map walGroup := by
          cases hg : op.group p <;> simp
        show Recoverable crc S (((op.group p).toList ++ suspects).map walGroup) d''
        rw [htried]
        exact hrec
  | @openPager order r d' hdown hx =>
      obtain ⟨S', f, w, gs, hf, hw, hdec, hval, hS', hfit, -⟩ := h.target hdown
      have hwp := wp_new (H := H) hf hw hdec hval hS' hfit.dvd hfit.bound order
      obtain ⟨p, hr, hE, hact, -⟩ := Prog.wp_exec hx hwp
      obtain rfl := Except.ok.inj hr
      have hshow := hE.shows hact
      refine ⟨S', [], ⟨hfit, hshow, hshow, ?_, by simp, fun _ => rfl, ?_,
        by simp [PagerSys.opened]⟩⟩
      · simp [PagerSys.opened]
      · intro q hq
        obtain rfl := Option.some.inj hq
        exact ⟨rfl, hE⟩
  | @crashOpen order d' d'' hdown hx hc =>
      obtain ⟨S', f, w, gs, hf, hw, hdec, hval, hS', hfit, hcand⟩ := h.target hdown
      have hwp := wp_new (H := H) hf hw hdec hval hS' hfit.dvd hfit.bound order
      have hrec : Recoverable crc S ((s.flying.toList ++ suspects).map walGroup) d' := by
        refine (Prog.wp_stops hx hwp).candidate (hcand.imp id ?_)
        rintro ⟨x, hx, heq⟩
        exact ⟨walGroup x, List.mem_map_of_mem hx, heq⟩
      obtain ⟨⟨f', w', hdisk⟩, hrec'⟩ := hrec.crashed hc
      exact ⟨S, suspects, { h with up := by simp [hdown], down := fun _ => ⟨f', w', hdisk, hrec'⟩ }⟩

/-- What `Pager::new` answers after a run that meets the invariant. -/
theorem SysInv.recovers {s : PagerSys} (h : SysInv H crc s S suspects) (hdown : s.pager = none)
    {order : Nat → Nat} {r : Except VelociError Pager} {d' : Disk}
    (hx : Prog.Exec Disk.Sound (Pager.new crc order) s.disk (.ok r) d') :
    ∃ p, r = .ok p ∧ (∀ q, q < p.numPages → ∃ page, (p.snapshot d').page q = .ok page) ∧
      ∀ v, Shows S v → Recovered v (p.snapshot d') ∨
        ∃ x ∈ s.flying.toList ++ suspects, Recovered (v.plus x.2) (p.snapshot d') := by
  obtain ⟨S', f, w, gs, hf, hw, hdec, hval, hS', hfit, hcand⟩ := h.target hdown
  have hwp := wp_new (H := H) hf hw hdec hval hS' hfit.dvd hfit.bound order
  obtain ⟨p, hr, hE, hact, hnow⟩ := Prog.wp_exec hx hwp
  have hshow := hE.shows hact
  have hfull := hE.full hact hnow
  refine ⟨p, Except.ok.inj hr, hfull, fun v hv => ?_⟩
  rcases hcand with rfl | ⟨x, hx, rfl⟩
  · exact Or.inl (hv.recovered hshow hfull)
  · exact Or.inr ⟨x, hx, (hv.plus x.2).recovered hshow hfull⟩

/-- `Pager::new` ends, and with a pager. -/
theorem SysInv.opens {s : PagerSys} (h : SysInv H crc s S suspects) (hdown : s.pager = none)
    (order : Nat → Nat) :
    ∃ p d', Prog.Exec Disk.Sound (Pager.new crc order) s.disk (.ok (.ok p)) d' := by
  obtain ⟨S', f, w, gs, hf, hw, hdec, hval, hS', hfit, -⟩ := h.target hdown
  have hwp := wp_new (H := H) hf hw hdec hval hS' hfit.dvd hfit.bound order
  have hexec := Prog.exec_run Disk.perform (Pager.new crc order) s.disk
  obtain ⟨p, ho, -⟩ := Prog.wp_exec hexec hwp
  exact ⟨p, _, ho ▸ hexec⟩

end VelociDB
