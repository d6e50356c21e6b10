import BackdropArc.CloneMany
import BackdropArc.CopyOnWrite
import BackdropArc.InnerCalls

/-!
# Copy on write through an `OffsetArc`

`OffsetArc::make_mut` converts the handle to an `Arc`, calls `Arc::make_mut`,
and converts the result back.  Its runs are those of the three calls in a row,
with the same steps of all other threads in between.
-/

namespace BackdropArc

open GuardedRuns

variable {N : Nat} {V S : Type}

namespace Sys

variable {s next : Sys N V S} {t : Fin N} {word : MachineWord}

theorem During.inner {move : Fin N × Act N V S} {stack : List (Call S)} {v : V}
    (during : s.During word t ⟨.idle, stack⟩ v move)
    (deep : (s.threads t).op = .idle → stack.length < (s.threads t).stack.length) :
    (s.inner t stack.length).During word t ⟨.idle, stack⟩ v move := by
  obtain ⟨⟨roomy, keeps⟩, _, faithful⟩ := during
  have level : ((s.inner t stack.length).threads t).stack.length =
      (s.threads t).stack.length := by
    rw [threads_inner, if_pos rfl, Thread.inner, length_innerStack]
  refine ⟨⟨roomy, keeps.inner⟩, fun back => ?_, fun same deeper => ?_⟩
  · have asleep := op_inner s t t stack.length
    rw [back] at asleep level
    have length : (s.threads t).stack.length = stack.length := level.symm
    rw [if_pos ⟨rfl, length⟩] at asleep
    have further := deep (Op.inner_eq_idle.mp asleep.symm)
    omega
  · exact faithful same (level ▸ deeper)

/-- The last step of a copy on write: in a state `mid`, which has the threads and
the handles of `s`, the call grants its reference, and so does the inner call. -/
theorem CopyRun.ends {call : UniqueCall} {ptr : Pointer S} {loaded : Nat} {v : V}
    {stack : List (Call S)} {path : List (Moment N V S)} {move : Fin N × Act N V S}
    (copying : call.copies = true) (run : CopyRun t call ptr loaded v stack path s)
    (during : s.During word t ⟨.idle, stack⟩ v move)
    (back : next.threads t = ⟨.idle, stack⟩) (stepped : step word s move = .ok next) :
    move = (t, .advance) ∧ ∃ (mid : Sys N V S) (own : Pointer S),
      mid.threads = s.threads ∧ mid.handles = s.handles ∧
      mid.grant t call own = .ok next ∧
      ∀ last, (mid.inner t stack.length).grant t call.inner own = .ok last →
        step word (s.inner t stack.length) (t, .advance) = .ok last := by
  obtain ⟨regular, under, faithful⟩ := during
  have payload := run.payload_next under stepped
  have sound := run.sound.stepped regular.1 regular.2 stepped
  obtain ⟨u, act⟩ := move
  obtain rfl : u = t := by
    by_contra other
    exact under (((step_frame stepped).others t (Ne.symm other)).symm.trans back)
  have op_eq := op_inner s u u stack.length
  have stage := run.stage
  generalize copiesMade u stack.length path = made,
    ownersLost u stack.length ptr.p path = taken at stage
  cases stage with
  | tested threads =>
      obtain rfl := advance_of_busy (by simp [threads]) stepped
      rw [step_advance] at stepped ⊢
      rw [if_pos ⟨rfl, by rw [threads]⟩] at op_eq
      refine ⟨rfl, ?_⟩
      cases advance_eq_ok.mp stepped with
      | @grant call' ptr' _ op granted =>
          obtain ⟨rfl, rfl, rfl⟩ : call' = call ∧ ptr' = ptr ∧ loaded = 1 := by
            simpa [threads, eq_comm] using op
          rw [op] at op_eq
          exact ⟨s, ptr', rfl, rfl, granted, fun last granted' =>
            (Advanced.grant op_eq granted').advance_eq⟩
      | @decline call' ptr' loaded' _ op shared declined =>
          obtain rfl : call' = call := by
            simp only [threads, Op.tested.injEq] at op
            exact op.1.symm
          rw [decline_of_clones s u ptr' (Or.inr copying)] at declined
          obtain rfl := Except.ok.inj declined
          simp [threads] at back
      | fetchAdd op | cloned op | moved op | released op | lastReleased op | acquired op
      | finalized op => simp [threads] at op
  | copying op above shared threads =>
      have running := stage_of_running copying shared threads run.payload
        (fun top => faithful rfl (by simp [threads, top])) stepped
      rcases running with ⟨_, after⟩ | ⟨_, _, after, _⟩
      all_goals
        obtain ⟨_, _, _, _, _, _, copies, lost⟩ := after.granted sound back payload
        simp [shared] at copies lost
  | releasing own shared copied threads =>
      obtain rfl := advance_of_busy (by simp [threads]) stepped
      rw [step_advance] at stepped ⊢
      rw [if_pos ⟨rfl, by rw [threads]⟩] at op_eq
      refine ⟨rfl, ?_⟩
      cases advance_eq_ok.mp stepped with
      | @released ptr' rest old heap _ op subtracted several finished =>
          obtain ⟨rfl, rfl⟩ : ptr' = ptr ∧ rest = .grant call own := by
            simpa [threads, eq_comm] using op
          rw [op] at op_eq
          exact ⟨{ s with heap := heap }, own, rfl, rfl, finished, fun last granted =>
            (Advanced.released op_eq subtracted several granted).advance_eq⟩
      | lastReleased => simp [setOp] at back
      | fetchAdd op | cloned op | grant op | decline op | moved op | acquired op
      | finalized op => simp [threads] at op
  | disposing own op shared copied last threads =>
      obtain rfl := advance_of_busy (by rcases last with rfl | rfl <;> simp [threads]) stepped
      rw [step_advance] at stepped ⊢
      rw [if_pos ⟨rfl, by rw [threads]⟩] at op_eq
      refine ⟨rfl, ?_⟩
      cases advance_eq_ok.mp stepped with
      | acquired => simp [setOp] at back
      | @finalized ptr' rest heap _ op' given finished =>
          obtain ⟨rfl, rfl⟩ : ptr' = ptr ∧ rest = .grant call own := by
            rcases last with rfl | rfl
            · simp [threads] at op'
            · simpa [threads, eq_comm] using op'
          rw [op'] at op_eq
          exact ⟨{ s with
            heap := heap
            log := s.log ++ [.life ptr'.p (.finalize (u, ptr'.strategy))] }, own, rfl, rfl,
            finished, fun last granted => (Advanced.finalized op_eq given granted).advance_eq⟩
      | fetchAdd op' | cloned op' | grant op' | decline op' | moved op' | released op'
      | lastReleased op' => rcases last with rfl | rfl <;> simp [threads] at op'
  | kept _ granted => exact absurd granted.back under
  | replaced own _ _ granted _ => exact absurd granted.back under

theorem setOp_of_inner (s : Sys N V S) (t : Fin N) (op : Op V S) :
    (s.inner t (s.threads t).stack.length).setOp t op = s.setOp t op := by
  unfold setOp
  rw [threads_inner, if_pos rfl, Thread.inner, innerStack_of_le le_rfl]
  simp [inner]

/-- After `from_raw_offset`, `Arc::make_mut` starts where the inner call does. -/
theorem inner_starts {key : Nat}
    (stepped : step word s (t, .unique .offsetMakeMut key) = .ok next) :
    ∃ converted, step word s (t, .convert key .fromRawOffset) = .ok converted ∧
      step word converted (t, .unique .makeMut key) =
        .ok (next.inner t (s.threads t).stack.length) := by
  rcases step_cases stepped with ⟨wrong, _⟩ | ⟨idle, called⟩
  · simp at wrong
  · cases called with
    | @unique _ _ loaded hd freed form load =>
        obtain ⟨found, unlent, unborrowed⟩ := free_eq_ok.mp freed
        have applied : Conversion.fromRawOffset.apply hd = some { hd with form := .arc } := by
          simp [Conversion.apply, form, UniqueCall.form]
        let converted : Sys N V S :=
          { s with handles := s.handles.replace key { hd with form := .arc } }
        have freed' : converted.free key = .ok { hd with form := .arc } := by
          apply free_eq_ok.mpr
          refine ⟨?_, unlent, unborrowed⟩
          rw [SlotTable.get?_replace found, if_pos rfl]
        have tested := setOp_inner s t t (s.threads t).stack.length
          (.tested .offsetMakeMut hd.toPointer loaded)
        rw [if_pos ⟨rfl, rfl⟩, setOp_of_inner] at tested
        refine ⟨converted, ?_, ?_⟩
        · rw [step_of_idle idle (by simp)]
          exact Called.call_eq (.convert freed applied)
        · rw [step_of_idle (s := converted) idle (by simp)]
          rw [Called.call_eq (.unique freed' rfl load)]
          have erased : converted.handles.erase key = s.handles.erase key :=
            SlotTable.erase_replace _ _ _
          rw [erased]
          exact congrArg (fun threads => Except.ok ({ s with
            handles := s.handles.erase key
            threads := threads } : Sys N V S)) tested.symm

/-- Two calls have granted a mutable reference through the handle `own`, one as
an `OffsetArc` and one as an `Arc`, and agree on everything else. -/
structure GrantedBoth (last returned : Sys N V S) (t : Fin N) (key : Nat)
    (own : Pointer S) : Prop where
  idle : (last.threads t).op = .idle
  answer : ∃ before, last.log = before ++ [.returned t (.granted key)]
  stored : last.handles.get? key = some { own.handle .offsetArc with lent := true }
  returned : returned =
    { last with handles := last.handles.replace key { own.handle .arc with lent := true } }

/-- The ends of the two calls. -/
theorem grantedBoth_of_grant {mid : Sys N V S} {own : Pointer S}
    (granted : mid.grant t .offsetMakeMut own = .ok next) :
    ∃ returned, (mid.inner t (mid.threads t).stack.length).grant t .makeMut own =
        .ok returned ∧
      GrantedBoth next returned t mid.handles.nextKey own := by
  obtain rfl := Except.ok.inj granted
  refine ⟨_, rfl, by simp [give, setOp], ⟨mid.log, rfl⟩,
    SlotTable.get?_insert_nextKey _ _, ?_⟩
  unfold give
  rw [setOp_of_inner, SlotTable.replace_insert]
  rfl

/-- The caller writes through the reference and gives it back. -/
theorem write_endGrant {key : Nat} {own : Pointer S} {form : Form} {data : V}
    {heap : Heap V S} (idle : (s.threads t).op = .idle)
    (stored : s.handles.get? key = some { own.handle form with lent := true })
    (written : s.heap.write own.p data = .ok heap) :
    s.actAll word t [.write key data, .endGrant key] = .ok { s with
      heap := heap
      handles := s.handles.replace key (own.handle form) } := by
  have wrote : step word s (t, .write key data) = .ok { s with heap := heap } := by
    rw [step_of_idle idle (by simp)]
    exact Called.call_eq (.write stored rfl written)
  have ended : step word { s with heap := heap } (t, .endGrant key) = .ok { s with
      heap := heap
      handles := s.handles.replace key (own.handle form) } := by
    rw [step_of_idle (s := { s with heap := heap }) idle (by simp)]
    exact Called.call_eq (.endGrant (s := { s with heap := heap }) stored rfl)
  rw [actAll_cons, bind_eq_ok]
  refine ⟨_, wrote, ?_⟩
  rw [actAll_single]
  exact ended

/-- When the reference has been used and given back, `into_raw_offset` makes the
two states equal. -/
theorem GrantedBoth.merge {last returned : Sys N V S} {key : Nat} {own : Pointer S}
    (both : GrantedBoth last returned t key own) (sound : last.Sound)
    (word : MachineWord) (data : V) :
    ∃ final, last.actAll word t [.write key data, .endGrant key] = .ok final ∧
      returned.actAll word t
        [.write key data, .endGrant key, .convert key .intoRawOffset] = .ok final := by
  obtain ⟨idle, _, stored, rfl⟩ := both
  have alone := sound.alone stored rfl
  have unborrowed := sound.unborrowed_of_lent stored rfl
  obtain ⟨heap, written⟩ := Heap.write_of_counted alone.counted data
  refine ⟨_, write_endGrant idle stored written, ?_⟩
  let returned : Sys N V S :=
    { last with handles := last.handles.replace key { own.handle .arc with lent := true } }
  have there : returned.handles.get? key = some { own.handle .arc with lent := true } := by
    rw [SlotTable.get?_replace stored, if_pos rfl]
  let after : Sys N V S := { returned with
    heap := heap
    handles := returned.handles.replace key (own.handle .arc) }
  have used : returned.actAll word t [.write key data, .endGrant key] = .ok after :=
    write_endGrant idle there written
  have freed : after.free key = .ok (own.handle .arc) := by
    apply free_eq_ok.mpr
    refine ⟨?_, rfl, unborrowed⟩
    rw [SlotTable.get?_replace there, if_pos rfl]
  have merged : after.handles.replace key (own.handle .offsetArc) =
      last.handles.replace key (own.handle .offsetArc) := by
    rw [SlotTable.replace_replace, SlotTable.replace_replace]
  refine actAll_append_eq_ok.mpr ⟨after, used, ?_⟩
  rw [actAll_single, step_of_idle (s := after) idle (by simp),
    Called.call_eq (.convert freed rfl)]
  exact congrArg (fun handles => Except.ok ({ last with
    heap := heap
    handles := handles } : Sys N V S)) merged

/-- `OffsetArc::make_mut`, called on `key`, went along `path` and granted its reference
under `granted`.  With the same steps, the state after the use of that reference is
the one that `from_raw_offset`, `Arc::make_mut` and `into_raw_offset` lead to. -/
def SameEffect (word : MachineWord) (t : Fin N) (v : V) (s last : Sys N V S)
    (key granted : Nat) (path : List (Moment N V S)) : Prop :=
  ∃ converted started path' returned,
    step word s (t, .convert key .fromRawOffset) = .ok converted ∧
    step word converted (t, .unique .makeMut key) = .ok started ∧
    Trail (step word) (During word t (s.threads t) v) started path' returned ∧
    path'.map Transition.action = path.map Transition.action ∧
    returned.threads t = s.threads t ∧
    ∀ data, ∃ final,
      last.actAll word t [.write granted data, .endGrant granted] = .ok final ∧
      returned.actAll word t
        [.write granted data, .endGrant granted, .convert granted .intoRawOffset] = .ok final

section Call

variable {call : UniqueCall} {ptr : Pointer S} {loaded : Nat} {v : V}
  {stack : List (Call S)} {first last : Sys N V S} {path : List (Moment N V S)}

theorem CopyRun.of_trail (copies : call.copies = true)
    (run : CopyRun t call ptr loaded v stack [] first)
    (trail : Trail (step word) (During word t ⟨.idle, stack⟩ v) first path last) :
    CopyRun t call ptr loaded v stack path last :=
  trail.invariant run fun _ _ _ _ before during stepped =>
    before.stepped copies during stepped

/-- The inner call makes the same steps until one of them ends the call. -/
theorem CopyRun.inner_trail (copies : call.copies = true)
    (run : CopyRun t call ptr loaded v stack [] first)
    (trail : Trail (step word) (During word t ⟨.idle, stack⟩ v) first path last)
    (under : last.threads t ≠ ⟨.idle, stack⟩) :
    ∃ path', Trail (step word) (During word t ⟨.idle, stack⟩ v)
        (first.inner t stack.length) path' (last.inner t stack.length) ∧
      path'.map Transition.action = path.map Transition.action := by
  let holds (state : Sys N V S) : Prop :=
    ∃ path, CopyRun t call ptr loaded v stack path state
  let live (state : Sys N V S) : Prop := state.threads t ≠ ⟨.idle, stack⟩
  have begins : holds first := ⟨[], run⟩
  have ends : live last := under
  refine (trail.map (fun state => state.inner t stack.length) ?_ ?_ ?_ begins ends).2
  · rintro current move next ⟨path, before⟩ during stepped
    exact ⟨_, before.stepped copies during stepped⟩
  · intro current move _ during
    exact during.2.1
  · rintro current move next ⟨path, before⟩ during lively stepped
    have deep := before.stage.deep during.2.1
    have after := before.stepped copies during stepped
    refine ⟨during.inner deep, step_inner during.1.2 deep ?_ stepped⟩
    intro level idle
    have further := after.stage.deep lively idle
    omega

theorem CopyRun.sameEffect {key : Nat}
    (started : step word s (t, .unique .offsetMakeMut key) = .ok first)
    (origin : s.threads t = ⟨.idle, stack⟩)
    (run : CopyRun t .offsetMakeMut ptr loaded v stack [] first)
    (trail : Trail (step word) (During word t ⟨.idle, stack⟩ v) first path last)
    (back : last.threads t = ⟨.idle, stack⟩) :
    ∃ granted, (∃ before, last.log = before ++ [.returned t (.granted granted)]) ∧
      SameEffect word t v s last key granted path := by
  have whole := run.of_trail rfl trail
  cases trail with
  | refl =>
      obtain ⟨_, _, _, _, tested, _⟩ := unique_spec started
      simp [back] at tested
  | @tail path current _ move before during stepped =>
      have now := run.of_trail rfl before
      obtain ⟨rfl, mid, own, threads, handles, granted, lower⟩ :=
        now.ends rfl during back stepped
      obtain ⟨returned, granted', both⟩ := grantedBoth_of_grant granted
      have level : (mid.threads t).stack = stack := by
        rw [← stack_of_grant granted, back]
      rw [level] at granted'
      obtain ⟨path', trail', same⟩ := run.inner_trail rfl before during.2.1
      obtain ⟨converted, convert, started'⟩ := inner_starts started
      rw [origin] at started'
      have deep := now.stage.deep during.2.1
      refine ⟨_, both.answer, converted, _, _, returned, convert, started',
        origin ▸ trail'.tail _ (during.inner deep) (lower returned granted'), ?_, ?_, ?_⟩
      · simp only [List.map_append, same, List.map_cons, List.map_nil]
      · rw [both.returned, origin]
        exact back
      · exact both.merge whole.sound word

end Call

/-- After the count wrapped around, `make_mut` grants a mutable reference into a block
that another handle points to, and another thread counts one more owner meanwhile. -/
theorem wrappedCrowd_copied {u : Fin N} (spare : maxRefcount word + 3 ≤ t)
    (late : maxRefcount word + 3 ≤ u) (other : u ≠ t) :
    ∃ first last, step word (wrappedCrowd word N) (t, .unique .makeMut 1) = .ok first ∧
      Reaches (step word) Keeps first last ∧
        last.threads t = (wrappedCrowd word N).threads t ∧
          last.handles.get? 0 = some ⟨⟨0, ()⟩, .arc, false⟩ ∧
            last.handles.get? 2 = some ⟨⟨0, ()⟩, .arc, true⟩ ∧
              last.heap.status 0 = .counted (2 % word.modulus) := by
  have idle := wrappedCrowd_idle word spare
  have freed := wrappedCrowd_free word N
  let tested : Sys N Unit Unit :=
    { wrappedCrowd word N with
      handles := (wrappedCrowd word N).handles.erase 1
      threads := (wrappedCrowd word N).setOp t (.tested .makeMut ⟨0, ()⟩ 1) }
  have loaded : step word (wrappedCrowd word N) (t, .unique .makeMut 1) = .ok tested := by
    rw [step_of_idle (by rw [idle]) (by simp)]
    exact Called.call_eq (.unique freed rfl rfl)
  have asleep : (tested.threads u).op = .idle := by
    simp [tested, setOp, other, wrappedCrowd_idle word late]
  let cloning : Sys N Unit Unit :=
    { tested with threads := tested.setOp u (.cloning ⟨0, 0⟩ SharedForm.arc ()) }
  have cloned : step word tested (u, .clone (.handle 0) .clone) = .ok cloning := by
    rw [step_of_idle asleep (by simp)]
    exact Called.call_eq (.clone rfl rfl)
  let counted : Sys N Unit Unit := { cloning with
    heap := [{ count := 2 % word.modulus, data := (), fate := .live, leaked := 0 }]
    threads := cloning.setOp u (.cloned ⟨0, 0⟩ SharedForm.arc () 1) }
  have added : step word cloning (u, .advance) = .ok counted := by
    rw [step_advance]
    exact Advanced.advance_eq (.fetchAdd (by simp [cloning, setOp]) rfl)
  have granted : step word counted (t, .advance) =
      .ok (counted.give t ⟨⟨0, ()⟩, .arc, true⟩ (.granted 2)) := by
    rw [step_advance]
    have op : (counted.threads t).op = .tested .makeMut ⟨0, ()⟩ 1 := by
      simp [counted, cloning, tested, setOp, Ne.symm other]
    exact Advanced.advance_eq (.grant op rfl)
  refine ⟨tested, counted.give t ⟨⟨0, ()⟩, .arc, true⟩ (.granted 2), loaded, ?_, ?_, rfl,
    rfl, rfl⟩
  · exact ((Reaches.refl.tail _ ⟨rfl, rfl⟩ cloned).tail _ ⟨rfl, rfl⟩ added).tail _ ⟨rfl, rfl⟩
      granted
  · simp [give, counted, cloning, tested, setOp, Ne.symm other, idle]

end Sys

end BackdropArc
