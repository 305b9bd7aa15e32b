import MimicPP.Following

/-!
What a test that passes has established, and how one that fails ends.
-/

namespace MimicPP.Passing

open MimicPP.Noexcept MimicPP.Sequence MimicPP.Reports MimicPP.Control MimicPP.Expectation
open MimicPP.Matching MimicPP.Transition MimicPP.Invariant MimicPP.Order MimicPP.Outcome
open MimicPP.Verdict MimicPP.Reporting MimicPP.Unwinding MimicPP.Scoped MimicPP.Following
open MimicPP.Runs hiding Later machine step

variable {σ Call Ret Exc : Type} {w w' : World σ Call Ret Exc} {e : ℕ} {p : ControlPolicy}
variable {c : CollId} {call : Call} {s s' : Status σ Call Ret Exc}
variable {b : Builder σ Call Ret Exc} {loc : SourceLocation} {reporters : ℕ → Reporter Call Exc}

/-! ### The first failure decides -/

lemma destroyExpectation_decided (c : CollId) (e : ExpId) (n : ℕ) (s : Status σ Call Ret Exc) :
    Run.Decided Occurrence.exit (destroyExpectation reporters c e n s) :=
  Run.Decided.single _ _ _

lemma destroySequence_decided (tag : Tag) (n : ℕ) (s : Status σ Call Ret Exc) :
    Run.Decided Occurrence.exit (destroySequence reporters tag n s) :=
  Run.Decided.single _ _ _

/-- No expectation signals with an exception in flight, unless it cannot be described. -/
lemma destroyExpectation_silent (hd : Disciplined reporters) {x : BasicExpectation σ Call Ret Exc}
    (hx : s.world.exps[e]? = some x)
    (hdescribed : ∀ p ∈ x.policies, ∀ env, ∃ d, p.describe env = .ok d) (c : CollId) (n : ℕ) :
    (destroyExpectation reporters c e (n + 1) s).exit = .ok () := by
  obtain ⟨report, hreport⟩ := exists_report s.world.seqs fun p hp => hdescribed p hp s.world.env
  simp only [destroyExpectation, Run.single, World.remove, hx]
  split
  · rfl
  · rw [hreport]
    exact hd.silent n report

lemma destroySequence_silent (hd : Disciplined reporters) (tag : Tag) (n : ℕ)
    (s : Status σ Call Ret Exc) : (destroySequence reporters tag (n + 1) s).exit = .ok () := by
  simp only [destroySequence, Run.single]
  split
  · rfl
  · rw [hd.silent_error n]
    rfl

/-- **Whatever makes a test fail has occurred in it**, whatever the reporter does. -/
theorem exec_traced (test : Test σ Call Ret Exc) (n : ℕ) (s : Status σ Call Ret Exc) :
    Run.Traced Occurrence.exit (exec reporters test n s) := by
  induction test generalizing s with
  | done => exact Run.Traced.skip
  | expect b loc rest ih =>
    simp only [exec]
    split
    · exact Run.Traced.single Occurrence.exit _ .refused
    · exact ((ih _).leave fun _ => Run.Traced.single Occurrence.exit _ (.removed ..)).behind
  | sequence rest ih =>
    exact (ih _ _).leave fun _ => Run.Traced.single Occurrence.exit _ (.sequenceEnded ..)
  | call c call rest ih =>
    simp only [exec]
    split
    · rename_i events exit _
      exact Run.Traced.single Occurrence.exit _ (.called c call events (.error exit))
    · exact (ih _ _).behind
  | user f rest ih =>
    simp only [exec]
    split
    · rename_i exc _
      exact Run.Traced.single Occurrence.exit _ (.user (.error exc))
    · exact (ih _ _).behind
  | scope body rest ihb ihr => exact (ihb s).andThen (ihr _)
  | attempt body handler rest ihb _ ihr => exact (ihb s).rescue.andThen (ihr _)

/-- **A test ends the way its first failure does**, whatever else is found unfulfilled while its
blocks are left. -/
theorem exec_decided (hd : Disciplined reporters) {test : Test σ Call Ret Exc}
    (ht : test.Straight) (htest : test.Described) (n : ℕ) (hI : Inv s.world) :
    Run.Decided Occurrence.exit (exec reporters test n s) := by
  induction test generalizing s with
  | done => exact Run.Decided.skip
  | expect b loc rest ih =>
    simp only [exec]
    split
    · exact Run.Decided.single Occurrence.exit _ .refused
    · rename_i w e hfin
      have hw : Inv w := inv_later hI (later_create hfin)
      refine Run.Decided.behind ?_ rfl
      refine (ih ht htest.2 hw).leave (destroyExpectation_decided _ _ _ _) fun exc hexit => ?_
      -- the expectation still has the policies it was created with
      have hlive : (exec reporters rest n { s with world := w }).exit ≠ .error .terminate := by
        simp [hexit]
      have hlater := (exec_follows rest n { s with world := w } hlive hw).later
      obtain ⟨p, seqs, -, rfl, rfl⟩ := finalize_eq_ok hfin
      obtain ⟨x, hx, hpolicies⟩ := policies_later hlater List.getElem?_concat_length
      exact destroyExpectation_silent hd hx (hpolicies ▸ htest.1) _ _
  | sequence rest ih =>
    have hbody := ih s.constructed (ht _) (htest _)
      (s := { s with constructed := s.constructed + 1 }) hI
    exact hbody.leave (destroySequence_decided _ _ _) fun _ _ => destroySequence_silent hd _ _ _
  | call c call rest ih =>
    simp only [exec]
    split
    · rename_i events exit _
      exact Run.Decided.single Occurrence.exit _ (.called c call events (.error exit))
    · rename_i w events ret hresult
      have hfollows := follows_call (reporters n) c call hI (by rw [hresult]; simp) (.ok ())
      rw [hresult] at hfollows
      exact (ih _ (ht _) (htest _) (inv_later hI hfollows.later)).behind rfl
  | user f rest ih =>
    simp only [exec]
    split
    · rename_i exc _
      exact Run.Decided.single Occurrence.exit _ (.user (.error exc))
    · rename_i env _
      exact (ih env (ht _) (htest _) (s := { s with world := { s.world with env := env } })
        (hI.congr rfl rfl fun _ => List.Sublist.refl _)).behind rfl
  | scope body rest ihb ihr =>
    refine (ihb ht.1 htest.1 hI).andThen fun hbody => ihr ht.2 htest.2 ?_
    have hlive : (exec reporters body n s).exit ≠ .error .terminate := by simp [hbody]
    exact inv_later hI (exec_follows body n s hlive hI).later
  | attempt body handler rest => exact ht.elim

/-! ### Expectations that have been matched often enough -/

/-- Every expectation has got its minimum of matches, the first `k` aside. -/
def Fulfilled (k : ℕ) (w : World σ Call Ret Exc) : Prop :=
  ∀ e p, k ≤ e → policyOf w e = some p → p.min ≤ p.count

lemma fulfilled_length : Fulfilled w.exps.length w := fun _ _ hk hp =>
  absurd (policyOf_lt hp) (Nat.not_lt.mpr hk)

lemma Fulfilled.congr {k : ℕ} (h : Fulfilled k w) (hexps : w'.exps = w.exps) :
    Fulfilled k w' := fun e p hk hp => h e p hk (by rwa [policyOf, hexps] at hp)

/-- What has been matched often enough stays so. -/
lemma Fulfilled.trans {k : ℕ} (hI : Inv w) (h : Fulfilled k w) (hl : Later w w')
    (h' : Fulfilled w.exps.length w') : Fulfilled k w' := by
  intro e p hk hp
  rcases Nat.lt_or_ge e w.exps.length with hlt | hge
  · have hold : policyOf w e = some (w.exps[e]).controlPolicy :=
      policyOf_of_some (List.getElem?_eq_getElem hlt)
    obtain ⟨p', hp', hadv⟩ := policy_later hI hl hold
    obtain rfl : p' = p := Option.some.inj (hp'.symm.trans hp)
    rw [hadv.min]
    exact Nat.le_trans (h e _ hk hold) hadv.count_le
  · exact h' e p hge hp

lemma handleCall_length : (w.handleCall c call).1.exps.length = w.exps.length := by
  rcases hm : chosen w c call with _ | m
  · rw [handleCall_of_not_chosen hm]
  · obtain ⟨env, henv⟩ := handleCall_of_chosen hm
    rw [henv, consumeControl_length]

/-- An expectation whose destruction goes well has been matched often enough. -/
lemma min_le_count_of_destroyed (hd : Disciplined reporters) (hI : Inv s.world)
    (h : (destroyExpectation reporters c e 0 s).exit = .ok ()) (hp : policyOf s.world e = some p) :
    p.min ≤ p.count := by
  obtain ⟨x, hx, rfl⟩ := policyOf_eq_some.mp hp
  simp only [destroyExpectation, Run.single, World.remove, hx] at h
  split at h
  · rename_i hsat
    exact (Reentrant.isSatisfied_iff (hI.valid hp)).mp (Bool.and_eq_true_iff.mp hsat).1
  · rcases hreport : x.report s.world.env s.world.seqs with exc | report
    · rw [hreport] at h
      cases h
    · obtain ⟨exit, hexit⟩ := hd.unfulfilled report
      rw [hreport] at h
      cases hexit.symm.trans h

/-- **Whatever a passing test expected has been matched often enough.** -/
theorem exec_fulfilled (hd : Disciplined reporters) {test : Test σ Call Ret Exc}
    (ht : test.Straight) (hI : Inv s.world) (h : (exec reporters test 0 s).exit = .ok ()) :
    Fulfilled s.world.exps.length (exec reporters test 0 s).state.world := by
  induction test generalizing s with
  | done => exact fulfilled_length
  | expect b loc rest ih =>
    simp only [exec] at h ⊢
    split at h
    · cases h
    · rename_i w e hfin
      obtain ⟨rfl, hcreated⟩ := finalize_created hfin
      have hw : Inv w := inv_later hI (later_create hfin)
      obtain ⟨hbody, hdestroy⟩ := Run.leave_exit_eq_ok.mp h
      have hrest := ih ht (s := { s with world := w }) hw hbody
      have hlive : (exec reporters rest 0 { s with world := w }).exit ≠ .error .terminate := by
        simp [hbody]
      have hfollows := exec_follows rest 0 { s with world := w } hlive hw
      have hend := inv_later hw hfollows.later
      rw [Run.behind_state, Run.leave_of_ok hbody, Run.andThen_of_ok hbody]
      refine Fulfilled.congr (w := (exec reporters rest 0 { s with world := w }).state.world) ?_
        (remove_exps _)
      intro e p hk hp
      rcases Nat.eq_or_lt_of_le hk with rfl | hlt
      · exact min_le_count_of_destroyed hd hend hdestroy hp
      · exact hrest e p (by rw [hcreated.length]; exact hlt) hp
  | sequence rest ih =>
    obtain ⟨hbody, -⟩ := Run.leave_exit_eq_ok.mp h
    have hrest :=
      ih s.constructed (ht _) (s := { s with constructed := s.constructed + 1 }) hI hbody
    rw [exec, Run.leave_of_ok hbody, Run.andThen_of_ok hbody]
    exact hrest
  | call c call rest ih =>
    simp only [exec] at h ⊢
    split at h
    · cases h
    · rename_i w events ret hresult
      have hfollows := follows_call (reporters 0) c call hI
        (by rw [hresult]; simp) (.ok ())
      have hlength : (World.handleCall { s.world with reporter := reporters 0 } c
          call).1.exps.length = s.world.exps.length := handleCall_length
      rw [hresult] at hfollows hlength
      have hrest := ih ret (ht _) (s := { s with world := w }) (inv_later hI hfollows.later) h
      rw [← hlength]
      exact hrest
  | user f rest ih =>
    simp only [exec] at h ⊢
    split at h
    · cases h
    · rename_i env _
      exact ih env (ht _) (s := { s with world := { s.world with env := env } })
        (hI.congr rfl rfl fun _ => List.Sublist.refl _) h
  | scope body rest ihb ihr =>
    obtain ⟨hbody, hrest⟩ := Run.andThen_exit_eq_ok.mp h
    have hlive : (exec reporters body 0 s).exit ≠ .error .terminate := by simp [hbody]
    have hfollows := exec_follows body 0 s hlive hI
    have hmid := inv_later hI hfollows.later
    have hlive' : (exec reporters rest 0 (exec reporters body 0 s).state).exit ≠
        .error .terminate := by simp [hrest]
    rw [exec, Run.andThen_of_ok hbody]
    exact (ihb ht.1 hI hbody).trans hmid (exec_follows rest 0 _ hlive' hmid).later
      (ihr ht.2 hmid hrest)
  | attempt body handler rest => exact ht.elim

/-! ### Sequences that end with their block -/

/-- Expectations are attached to sequences that have been constructed, which the listed ones
have. -/
structure Ready (s : Status σ Call Ret Exc) (tags : List Tag) : Prop where
  inv : Inv s.world
  attached_lt : ∀ {e p tag id}, Attached s.world e p tag id → tag < s.constructed
  scope_lt : ∀ tag ∈ tags, tag < s.constructed

variable {tags : List Tag} {tag : Tag} {id : Id}

lemma Ready.fresh (h : Fresh s.world) : Ready s [] where
  inv := .fresh h
  attached_lt ha := by
    have hp := ha.policy
    rw [policyOf, h.exps] at hp
    cases hp
  scope_lt := nofun

/-- An expectation that existed before had its attachments already. -/
lemma attached_of_later (hI : Inv w) (h : Later w w') (he : e < w.exps.length)
    (ha : Attached w' e p tag id) : ∃ q, Attached w e q tag id := by
  have hold : policyOf w e = some (w.exps[e]).controlPolicy :=
    policyOf_of_some (List.getElem?_eq_getElem he)
  obtain ⟨p', hp', hadv⟩ := policy_later hI h hold
  obtain rfl : p' = p := Option.some.inj (hp'.symm.trans ha.policy)
  exact ⟨_, hold, hadv.sequences ▸ ha.mem⟩

/-- Nothing is attached by what creates no expectation. -/
lemma Ready.later (h : Ready s tags) (hl : Later s.world s'.world)
    (hlength : s'.world.exps.length = s.world.exps.length) (hc : s.constructed ≤ s'.constructed) :
    Ready s' tags where
  inv := inv_later h.inv hl
  attached_lt ha := by
    have he := policyOf_lt ha.policy
    rw [hlength] at he
    obtain ⟨q, hq⟩ := attached_of_later h.inv hl he ha
    exact Nat.lt_of_lt_of_le (h.attached_lt hq) hc
  scope_lt tag htag := Nat.lt_of_lt_of_le (h.scope_lt tag htag) hc

lemma Ready.create (h : Ready s tags) (hb : ∀ tag ∈ b.sequenceConfig.sequences, tag ∈ tags)
    (hfin : b.finalize loc s.world = (w, .ok e)) : Ready { s with world := w } tags where
  inv := inv_later h.inv (later_create hfin)
  attached_lt ha := by
    rcases (finalize_created hfin).2.attached.mp ha with hold | ⟨-, -, hmem⟩
    · exact h.attached_lt hold
    · exact h.scope_lt _ (hb _ (mem_newPolicy.mp hmem).1)
  scope_lt := h.scope_lt

lemma Ready.declare (h : Ready s tags) :
    Ready { s with constructed := s.constructed + 1 } (s.constructed :: tags) where
  inv := h.inv
  attached_lt ha := Nat.lt_succ_of_lt (h.attached_lt ha)
  scope_lt := List.forall_mem_cons.mpr
    ⟨Nat.lt_succ_self _, fun tag htag => Nat.lt_succ_of_lt (h.scope_lt tag htag)⟩

lemma Ready.tail (h : Ready s (tag :: tags)) : Ready s tags :=
  ⟨h.inv, h.attached_lt, fun t ht => h.scope_lt t (List.mem_cons_of_mem _ ht)⟩

lemma Ready.remove {reporter : Reporter Call Exc} (h : Ready s tags)
    (he : e ∈ s.world.colls c) :
    Ready { s with world := (World.remove { s.world with reporter := reporter } c e).1 } tags :=
  h.later ((later_install reporter).trans
    (later_act (a := .destroy c e) (by simp [Runs.step, he])))
    (congrArg List.length (remove_exps c)) (Nat.le_refl _)

lemma Ready.handleCall (h : Ready s tags) (reporter : Reporter Call Exc) (c : CollId)
    (call : Call) :
    Ready { s with
      world := (World.handleCall { s.world with reporter := reporter } c call).1 } tags :=
  h.later ((later_install reporter).trans (later_of_run handleCall_later)) handleCall_length
    (Nat.le_refl _)

lemma Ready.user (h : Ready s tags) (env : σ) :
    Ready { s with world := { s.world with env := env } } tags :=
  h.later (later_act (a := .user env) rfl) rfl (Nat.le_refl _)

def StaysReady (tags : List Tag) (s : Status σ Call Ret Exc) (_ : List (Occurrence Call Exc))
    (s' : Status σ Call Ret Exc) : Prop :=
  Ready s tags → Ready s' tags

lemma staysReady_composes : Run.Composes (StaysReady tags : Status σ Call Ret Exc →
    List (Occurrence Call Exc) → Status σ Call Ret Exc → Prop) :=
  fun hab hbc h => hbc (hab h)

theorem exec_ready {test : Test σ Call Ret Exc} (hw : test.WellScoped tags) (n : ℕ)
    (s : Status σ Call Ret Exc) : Run.Keeps (StaysReady tags) s (exec reporters test n s) := by
  induction test generalizing s tags with
  | done => exact Run.Keeps.skip fun h => h
  | expect b loc rest ih =>
    simp only [exec]
    split
    · exact fun hlive => absurd rfl hlive
    · rename_i w e hfin
      have hboth : Run.Keeps (fun s log s' => FollowsInv s log s' ∧ StaysReady tags s log s')
          { s with world := w } (exec reporters rest n { s with world := w }) := fun hlive =>
        ⟨exec_follows rest n _ hlive, ih hw.2 _ hlive⟩
      have hblock : Run.Keeps (StaysReady tags) s ((exec reporters rest n
          { s with world := w }).leave n (destroyExpectation reporters b.storage e)) := by
        refine Run.Keeps.leave hboth fun m hrest _ h => ?_
        have hcreated := h.create hw.1 hfin
        have hend := hrest.2 hcreated
        obtain ⟨rfl, hc⟩ := finalize_created hfin
        refine hend.remove ?_
        rw [(hrest.1 hcreated.inv).colls, hc.colls, Function.update_self]
        exact List.mem_append_right _ (List.mem_singleton_self _)
      exact hblock.behind fun h => h
  | sequence rest ih =>
    refine Run.Keeps.leave (ih _ (hw _) _) fun m hrest _ h => ?_
    exact (hrest h.declare).tail
  | call c call rest ih =>
    have hcall := fun h : Ready s tags => h.handleCall (reporters n) c call
    simp only [exec]
    split
    · rename_i w events exit hresult
      rw [hresult] at hcall
      exact fun _ => hcall
    · rename_i w events ret hresult
      rw [hresult] at hcall
      exact (ih ret (hw ret) _).behind fun hrest h => hrest (hcall h)
  | user f rest ih =>
    simp only [exec]
    split
    · exact fun _ h => h.user _
    · exact (ih _ (hw _) _).behind fun hrest h => hrest (h.user _)
  | scope body rest ihb ihr => exact (ihb hw.1 s).andThen staysReady_composes fun _ => ihr hw.2 _
  | attempt body handler rest ihb ihh ihr =>
    have hcaught := (ihb hw.1 s).rescue (R := StaysReady tags) staysReady_composes
      fun exc _ => ihh exc (hw.2.1 exc) _
    exact hcaught.andThen staysReady_composes fun _ => ihr hw.2.2 _

/-- A sequence has nothing to report when its block has been left in good order. -/
lemma destroy_of_fulfilled {k : ℕ} (hI : Inv w) (hk : ∀ e p id, Attached w e p tag id → k ≤ e)
    (h : Fulfilled k w) : (w.seqs tag).destroy = none := by
  rw [destroy_eq hI, Option.map_eq_none_iff, List.findIdx?_eq_none_iff]
  intro e he
  obtain ⟨p, id, ha⟩ := mem_attachedTo.mp he
  rw [countOf_of_policy ha.policy, minOf, ha.policy, Option.map_some, Option.getD_some]
  exact decide_eq_false (Nat.not_lt.mpr (h e p (hk e p id ha) ha.policy))

lemma sequence_in_order (hd : Disciplined reporters) {rest : Tag → Test σ Call Ret Exc}
    (ht : ∀ tag, (rest tag).Straight) (h : Ready s tags)
    (hbody : (exec reporters (rest s.constructed) 0
      { s with constructed := s.constructed + 1 }).exit = .ok ()) :
    ((exec reporters (rest s.constructed) 0
      { s with constructed := s.constructed + 1 }).state.world.seqs s.constructed).destroy =
        none := by
  have hlive : (exec reporters (rest s.constructed) 0
      { s with constructed := s.constructed + 1 }).exit ≠ .error .terminate := by simp [hbody]
  have hfollows := exec_follows _ 0 { s with constructed := s.constructed + 1 } hlive h.inv
  refine destroy_of_fulfilled (inv_later h.inv hfollows.later) ?_
    (exec_fulfilled hd (ht _) (s := { s with constructed := s.constructed + 1 }) h.inv hbody)
  intro e p id ha
  by_contra hlt
  -- the sequence did not exist when the expectation was attached
  obtain ⟨q, hq⟩ := attached_of_later h.inv hfollows.later (Nat.lt_of_not_le hlt) ha
  exact absurd (h.attached_lt hq) (Nat.lt_irrefl _)

/-! ### The verdict of a test -/

/-- Nothing is wrong with the occurrence. -/
def InOrder : Occurrence Call Exc → Prop
  | .created _ => True
  | .refused => False
  | .called _ _ _ exit => exit = .ok ()
  | .user exit => exit = .ok ()
  | .removed _ _ events exit => events = [] ∧ exit = .ok ()
  | .sequenceEnded _ _ message exit => message = none ∧ exit = .ok ()

lemma InOrder.exit {o : Occurrence Call Exc} (h : InOrder o) : o.exit = .ok () := by
  cases o with
  | created e => rfl
  | refused => exact h.elim
  | called c call events exit => exact h
  | user exit =>
    obtain rfl : exit = .ok () := h
    rfl
  | removed e n events exit => exact h.2
  | sequenceEnded tag n message exit => exact h.2

lemma inOrder_destroyExpectation (hd : Disciplined reporters)
    (h : (destroyExpectation reporters c e 0 s).exit = .ok ()) {o : Occurrence Call Exc}
    (ho : o ∈ (destroyExpectation reporters c e 0 s).log) : InOrder o := by
  obtain rfl := List.mem_singleton.mp ho
  refine ⟨?_, h⟩
  simp only [destroyExpectation, Run.single, World.remove] at h
  simp only [World.remove]
  split
  · rfl
  · rename_i x hx
    split
    · rfl
    · rename_i hsat
      rcases hreport : x.report s.world.env s.world.seqs with exc | report
      · simp only [hx, if_neg hsat, hreport] at h
        cases h
      · obtain ⟨exit, hexit⟩ := hd.unfulfilled report
        simp only [hx, if_neg hsat, hreport] at h
        cases hexit.symm.trans h

/-- **In a test that passes everything was in order.** -/
theorem exec_in_order (hd : Disciplined reporters) {test : Test σ Call Ret Exc}
    (ht : test.Straight) (hw : test.WellScoped tags) (hs : Ready s tags)
    (h : (exec reporters test 0 s).exit = .ok ()) :
    ∀ o ∈ (exec reporters test 0 s).log, InOrder o := by
  induction test generalizing s tags with
  | done => simp [exec]
  | expect b loc rest ih =>
    simp only [exec] at h ⊢
    split at h
    · cases h
    · rename_i w e hfin
      obtain ⟨hbody, hdestroy⟩ := Run.leave_exit_eq_ok.mp h
      refine List.forall_mem_cons.mpr ⟨trivial, fun o ho => ?_⟩
      rw [Run.leave_of_ok hbody, Run.andThen_of_ok hbody] at ho
      rcases List.mem_append.mp ho with ho | ho
      · exact ih ht hw.2 (hs.create hw.1 hfin) hbody o ho
      · exact inOrder_destroyExpectation hd hdestroy ho
  | sequence rest ih =>
    obtain ⟨hbody, -⟩ := Run.leave_exit_eq_ok.mp h
    intro o ho
    rw [exec, Run.leave_of_ok hbody, Run.andThen_of_ok hbody] at ho
    rcases List.mem_append.mp ho with ho | ho
    · exact ih _ (ht _) (hw _) hs.declare hbody o ho
    · obtain rfl := List.mem_singleton.mp ho
      have hnone := sequence_in_order hd ht hs hbody
      exact ⟨hnone, by simp only [hnone]⟩
  | call c call rest ih =>
    have hcall := hs.handleCall (reporters 0) c call
    simp only [exec] at h ⊢
    split at h
    · cases h
    · rename_i w events ret hresult
      rw [hresult] at hcall
      exact List.forall_mem_cons.mpr ⟨rfl, ih ret (ht _) (hw _) hcall h⟩
  | user f rest ih =>
    simp only [exec] at h ⊢
    split at h
    · cases h
    · exact List.forall_mem_cons.mpr ⟨rfl, ih _ (ht _) (hw _) (hs.user _) h⟩
  | scope body rest ihb ihr =>
    obtain ⟨hbody, hrest⟩ := Run.andThen_exit_eq_ok.mp h
    have hmid : Ready (exec reporters body 0 s).state tags :=
      exec_ready hw.1 0 s (by simp [hbody]) hs
    intro o ho
    rw [exec, Run.andThen_of_ok hbody] at ho
    rcases List.mem_append.mp ho with ho | ho
    · exact ihb ht.1 hw.1 hs hbody o ho
    · exact ihr ht.2 hw.2 hmid hrest o ho
  | attempt body handler rest => exact ht.elim

/-- The end of a sequence is no failure. -/
def EndsQuietly : Occurrence Call Exc → Prop
  | .sequenceEnded _ _ _ exit => exit = .ok ()
  | _ => True

/-- Where the end of a sequence finds it unfulfilled, the test has failed before. -/
theorem exec_endsQuietly (hd : Disciplined reporters) {test : Test σ Call Ret Exc}
    (ht : test.Straight) (hw : test.WellScoped tags) (hs : Ready s tags) :
    ∀ o ∈ (exec reporters test 0 s).log, EndsQuietly o := by
  induction test generalizing s tags with
  | done => simp [exec]
  | expect b loc rest ih =>
    simp only [exec]
    split
    · simp [Run.single, EndsQuietly]
    · rename_i w e hfin
      refine List.forall_mem_cons.mpr ⟨trivial, fun o ho => ?_⟩
      rcases Run.mem_leave_log ho with ho | ⟨-, ho⟩ | ho
      · exact ih ht hw.2 (hs.create hw.1 hfin) o ho
      · obtain rfl := List.mem_singleton.mp ho
        trivial
      · obtain rfl := List.mem_singleton.mp ho
        trivial
  | sequence rest ih =>
    intro o ho
    rcases Run.mem_leave_log ho with ho | ⟨hbody, ho⟩ | ho
    · exact ih _ (ht _) (hw _) hs.declare o ho
    · obtain rfl := List.mem_singleton.mp ho
      simp only [EndsQuietly, sequence_in_order hd ht hs hbody]
    · obtain rfl := List.mem_singleton.mp ho
      exact destroySequence_silent hd _ 0 _
  | call c call rest ih =>
    have hcall := hs.handleCall (reporters 0) c call
    simp only [exec]
    split
    · simp [Run.single, EndsQuietly]
    · rename_i w events ret hresult
      rw [hresult] at hcall
      exact List.forall_mem_cons.mpr ⟨trivial, ih ret (ht _) (hw _) hcall⟩
  | user f rest ih =>
    simp only [exec]
    split
    · simp [Run.single, EndsQuietly]
    · exact List.forall_mem_cons.mpr ⟨trivial, ih _ (ht _) (hw _) (hs.user _)⟩
  | scope body rest ihb ihr =>
    intro o ho
    rcases Run.mem_andThen_log ho with ho | ⟨hbody, ho⟩
    · exact ihb ht.1 hw.1 hs o ho
    · exact ihr ht.2 hw.2 (exec_ready hw.1 0 s (by simp [hbody]) hs) o ho
  | attempt body handler rest => exact ht.elim

/-- **The verdict of a test**: it passes exactly if everything that occurred in it was in order.
Otherwise, if its policies can be described, it ends the way the first failure did, which is
never the end of a sequence. -/
theorem test_verdict (hd : Disciplined reporters) {test : Test σ Call Ret Exc}
    (ht : test.Straight) (hw : test.WellScoped []) (h₀ : Fresh w) :
    ((exec reporters test 0 ⟨w, 0⟩).exit = .ok () ↔
      ∀ o ∈ (exec reporters test 0 ⟨w, 0⟩).log, InOrder o) ∧
    (test.Described → ∀ exit, (exec reporters test 0 ⟨w, 0⟩).exit = .error exit ↔
      ∃ before o after, (exec reporters test 0 ⟨w, 0⟩).log = before ++ o :: after ∧
        (∀ o' ∈ before, o'.exit = .ok ()) ∧ o.exit = .error exit ∧ EndsQuietly o) := by
  have hs : Ready (⟨w, 0⟩ : Status σ Call Ret Exc) [] := .fresh h₀
  refine ⟨⟨exec_in_order hd ht hw hs, fun hlog => ?_⟩, fun htest exit => ?_⟩
  · exact exec_traced test 0 ⟨w, 0⟩ fun o ho => (hlog o ho).exit
  · have hdecided := exec_decided hd ht htest 0 (s := ⟨w, 0⟩) hs.inv
    rw [hdecided, Run.firstFailure_eq_error]
    constructor
    · rintro ⟨before, o, after, hlog, hbefore, hexit⟩
      refine ⟨before, o, after, hlog, hbefore, hexit, ?_⟩
      exact exec_endsQuietly hd ht hw hs o (hlog ▸ by simp)
    · rintro ⟨before, o, after, hlog, hbefore, hexit, -⟩
      exact ⟨before, o, after, hlog, hbefore, hexit⟩

/-- **What a passing test has established**: every expectation was matched at least as often as
its minimum and at most as often as its maximum says, and none is left. -/
theorem passing_test (hd : Disciplined reporters) {test : Test σ Call Ret Exc}
    (ht : test.Straight) (h₀ : Fresh w) (h : (exec reporters test 0 ⟨w, 0⟩).exit = .ok ()) :
    (∀ e p, policyOf (exec reporters test 0 ⟨w, 0⟩).state.world e = some p →
      p.min ≤ matched e (exec reporters test 0 ⟨w, 0⟩).log ∧
        matched e (exec reporters test 0 ⟨w, 0⟩).log ≤ p.max) ∧
    ∀ c, (exec reporters test 0 ⟨w, 0⟩).state.world.colls c = [] := by
  have hI : Inv w := .fresh h₀
  have hlive : (exec reporters test 0 ⟨w, 0⟩).exit ≠ .error .terminate := by simp [h]
  have hfollows := exec_follows test 0 ⟨w, 0⟩ hlive hI
  refine ⟨fun e p hp => ?_, fun c => ?_⟩
  · have hzero : countOf w e = 0 := countOf_of_none (by simp [policyOf, h₀.exps])
    have hcount : p.count = matched e (exec reporters test 0 ⟨w, 0⟩).log := by
      rw [← countOf_of_policy hp, hfollows.counted, hzero, Nat.zero_add]
    have hmin := exec_fulfilled hd ht (s := ⟨w, 0⟩) hI h e p (by simp [h₀.exps]) hp
    have hmax := ((inv_later hI hfollows.later).valid hp).count_le_max
    rw [hcount] at hmin hmax
    exact ⟨hmin, hmax⟩
  · rw [hfollows.colls]
    exact h₀.colls c

/-- **Every test cleans up after itself**, whatever it catches and whatever the reporter does:
unless it has terminated, each collection stores what it stored before, no expectation has lost
a match or changed its limits, and each has gained the matches that occurred. -/
theorem test_restores (reporters : ℕ → Reporter Call Exc) (test : Test σ Call Ret Exc) (n : ℕ)
    (hr : Runs.Reachable s.world) (h : (exec reporters test n s).exit ≠ .error .terminate) :
    (exec reporters test n s).state.world.colls = s.world.colls ∧
    (∀ e p, policyOf s.world e = some p → ∃ p',
      policyOf (exec reporters test n s).state.world e = some p' ∧ Advances p p') ∧
    ∀ e, countOf (exec reporters test n s).state.world e =
      countOf s.world e + matched e (exec reporters test n s).log := by
  have hI := reachable_inv hr
  have hfollows := exec_follows test n s h hI
  exact ⟨hfollows.colls, fun e p hp => policy_later hI hfollows.later hp, hfollows.counted⟩

/-! ### A sequence, an expectation and a call -/

def noLocation : SourceLocation := ⟨"", 0⟩

def bareReporters : ℕ → Reporter Unit (Thrown Unit) :=
  defaultReporter SourceLocation.fileName fun _ => emptyCallReport

/-- A world without expectations. -/
def bareWorld : World Unit Unit Unit (Thrown Unit) := start (bareReporters 0) () fun _ => .lazy

def onceInSequence : Test Unit Unit Unit (Thrown Unit) :=
  .sequence fun tag => .expect (anyCall 0 1 1 [tag] ()) noLocation (.call 0 () fun _ => .done)

lemma onceInSequence_wellScoped : onceInSequence.WellScoped [] :=
  fun tag => ⟨by simp [anyCall], fun _ => trivial⟩

lemma onceInSequence_straight : onceInSequence.Straight := fun _ _ => trivial

/-- The test is left by an exception of its own, before it comes to the call. -/
def abandonedInSequence : Test Unit Unit Unit (Thrown Unit) :=
  .sequence fun tag => .expect (anyCall 0 1 1 [tag] ()) noLocation
    (.user (fun env => (env, .error (.user ()))) fun _ => .call 0 () fun _ => .done)

/-- The one test passes. The other one ends by its own exception, though the expectation and the
sequence are found unfulfilled behind it. -/
theorem test_verdict_once :
    ((exec bareReporters onceInSequence 0 ⟨bareWorld, 0⟩).exit = .ok () ∧
      ∀ o ∈ (exec bareReporters onceInSequence 0 ⟨bareWorld, 0⟩).log, InOrder o) ∧
    (exec bareReporters abandonedInSequence 0 ⟨bareWorld, 0⟩).exit =
        .error (.thrown (.user ())) ∧
      ∃ before o after,
        (exec bareReporters abandonedInSequence 0 ⟨bareWorld, 0⟩).log = before ++ o :: after ∧
        (∀ o' ∈ before, o'.exit = .ok ()) ∧ o.exit = .error (.thrown (.user ())) ∧
        EndsQuietly o := by
  have hd : Disciplined bareReporters := defaultReporter_disciplined _ _
  have hpasses : (exec bareReporters onceInSequence 0 ⟨bareWorld, 0⟩).exit = .ok () := rfl
  have hfails : (exec bareReporters abandonedInSequence 0 ⟨bareWorld, 0⟩).exit =
      .error (.thrown (.user ())) := rfl
  have hstraight : abandonedInSequence.Straight := fun _ _ _ => trivial
  have hscoped : abandonedInSequence.WellScoped [] :=
    fun tag => ⟨by simp [anyCall], fun _ _ => trivial⟩
  have hdescribed : abandonedInSequence.Described :=
    fun tag => ⟨by simp [anyCall], fun _ _ => trivial⟩
  refine ⟨⟨hpasses, ?_⟩, hfails, ?_⟩
  · exact (test_verdict hd onceInSequence_straight onceInSequence_wellScoped
      (start_fresh _ _ _)).1.mp hpasses
  · exact ((test_verdict hd hstraight hscoped (start_fresh _ _ _)).2 hdescribed _).mp hfails

theorem passing_test_once :
    ∃ p, policyOf (exec bareReporters onceInSequence 0 ⟨bareWorld, 0⟩).state.world 0 = some p ∧
      p.min ≤ matched 0 (exec bareReporters onceInSequence 0 ⟨bareWorld, 0⟩).log := by
  have hpasses : (exec bareReporters onceInSequence 0 ⟨bareWorld, 0⟩).exit = .ok () := rfl
  refine ⟨_, rfl, ?_⟩
  exact ((passing_test (defaultReporter_disciplined _ _) onceInSequence_straight
    (start_fresh _ _ _) hpasses).1 0 _ rfl).1

/-- The violation of an expectation is caught. -/
def caught : Test Unit Unit Unit (Thrown Unit) :=
  .attempt (.expect (anyCall 0 1 1 [] ()) noLocation .done) (fun _ => .done) .done

theorem test_restores_caught :
    (exec bareReporters caught 0 ⟨bareWorld, 0⟩).state.world.colls = bareWorld.colls := by
  have hpasses : (exec bareReporters caught 0 ⟨bareWorld, 0⟩).exit = .ok () := rfl
  have hr : Runs.Reachable bareWorld := .init (start_fresh _ _ _)
  exact (test_restores bareReporters caught 0 (s := ⟨bareWorld, 0⟩) hr (by simp [hpasses])).1

/-- A violation that has been caught is found again when the sequence ends. -/
def caughtInSequence : Test Unit Unit Unit (Thrown Unit) :=
  .sequence fun tag =>
    .attempt (.expect (anyCall 0 1 1 [tag] ()) noLocation .done) (fun _ => .done) .done

example : (exec bareReporters caughtInSequence 0 ⟨bareWorld, 0⟩).exit = .error .terminate := rfl

end MimicPP.Passing
