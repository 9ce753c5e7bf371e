import Mathlib.Data.Finset.Card
import Mykonos.Tasks.Sections

/-! # Callers in contention for the queues

The accesses of all callers, in any order, amount to calls that are served at once. No two
callers get into each other's way, and none is kept from its end by another for good.
-/

namespace Mykonos.Tasks

open Lib

variable {κ ι : Type*}

namespace Sections

namespace Stands

variable {seen : List (Event κ (Request ι) Reply)} {s : Callers κ ι} {t : Lists κ ι} {c : κ} {i : ι}
  [DecidableEq κ] [DecidableEq ι]

/-- Between two events a call is served or it is not. -/
def Matched (seen : List (Event κ (Request ι) Reply)) (s : Callers κ ι) (t : Lists κ ι) : Prop :=
  Stands seen s t ∨ ∃ t', Atomic.Step Request.serve t none t' ∧ Stands seen s t'

theorem push (h : Stands seen s t) {value : Task} {place : PushPlace}
    (here : s.place c = .push i value place) :
    ∃ result, Sections.push i value (s.queues i) s.next place = some result ∧
      Matched seen (s.access c i result) t := by
  have within : place.Within (s.queues i) s.next (t.object i) value :=
    h.within here rfl
  have new : value ∉ t.object i := h.absent here rfl
  cases place with
  | tests =>
      have shows : (s.queues i).Shows s.next (t.object i) := within
      refine ⟨_, rfl, .inl (h.fields here rfl rfl rfl ?_ rfl)⟩
      split_ifs with empty
      · exact ⟨shows, List.head?_eq_none_iff.mp (shows.head.symm.trans empty)⟩
      · refine ⟨shows, fun none => empty ?_⟩
        rw [shows.head, none, List.head?_nil]
  | fillsTail => exact ⟨_, rfl, .inl (h.fields here rfl rfl rfl ⟨rfl, within.2⟩ rfl)⟩
  | fillsHead =>
      refine ⟨_, rfl, .inl (h.fields here rfl rfl rfl ?_ rfl)⟩
      obtain ⟨tail, empty⟩ := within
      simp only [Place.Within, PushPlace.Within, tail, empty, List.nil_append]
      exact .single s.next value
  | readsTail => exact ⟨_, rfl, .inl (h.fields here rfl rfl rfl ⟨within.1, rfl, within.2⟩ rfl)⟩
  | links last =>
      obtain ⟨shows, tail, several⟩ := within
      have final : last = (t.object i).getLast? := tail.symm.trans shows.threaded.last
      cases last with
      | none => exact absurd (List.getLast?_eq_none_iff.mp final.symm) several
      | some last =>
          have member : last ∈ t.object i := List.mem_of_getLast? final.symm
          obtain ⟨front, parts⟩ := List.getLast?_eq_some_iff.mp final.symm
          have unique := shows.threaded.nodup
          refine ⟨_, rfl, .inl (h.accesses here rfl rfl rfl ⟨?_, last, tail, ?_⟩ rfl (.inl rfl)
            fun x different => ?_)⟩
          · apply shows.sameLinks
            intro a inside
            apply Function.update_of_ne
            rintro rfl
            rw [parts] at unique inside
            rw [List.dropLast_concat] at inside
            exact (List.nodup_append.mp unique).2.2 a inside a (List.mem_singleton.mpr rfl) rfl
          · exact Function.update_self _ _ _
          · by_cases same : x = last
            · exact same ▸ member
            · exact absurd (Function.update_of_ne same _ _) different
  | setsTail =>
      obtain ⟨shows, last, tail, link⟩ := within
      refine ⟨_, rfl, .inl (h.fields here rfl rfl rfl ?_ rfl)⟩
      have threaded := shows.threaded
      rw [tail] at threaded
      have grown := threaded.append new
      rwa [← link, Function.update_eq_self, link] at grown
  | counts =>
      refine ⟨_, rfl, .inr ⟨_, .serves ((h.pending c).trans (by rw [here]; rfl)), ?_⟩⟩
      refine h.serves here rfl _ rfl (fun j other => Function.update_of_ne other _ _) ?_
      simp only [Request.serve, listStep, Function.update_self]
      refine ⟨within, ?_⟩
      simp only [h.size i, List.length_append, List.length_singleton, Nat.mod_add_mod]

theorem pushFront (h : Stands seen s t) {value : Task} {place : FrontPlace}
    (here : s.place c = .pushFront i value place) :
    Matched seen (s.access c i (Sections.pushFront i value (s.queues i) s.next place)) t := by
  have within : place.Within (s.queues i) s.next (t.object i) value :=
    h.within here rfl
  have new : value ∉ t.object i := h.absent here rfl
  cases place with
  | tests =>
      have shows : (s.queues i).Shows s.next (t.object i) := within
      refine .inl (h.fields here rfl ?_ ?_ ?_ rfl)
      · split_ifs <;> rfl
      · split_ifs <;> rfl
      split_ifs with empty
      · exact ⟨shows, List.head?_eq_none_iff.mp (shows.head.symm.trans empty)⟩
      · refine ⟨shows, fun none => empty ?_⟩
        rw [shows.head, none, List.head?_nil]
  | fillsTail => exact .inl (h.fields here rfl rfl rfl ⟨rfl, within.2⟩ rfl)
  | fillsHead =>
      refine .inl (h.fields here rfl rfl rfl ?_ rfl)
      obtain ⟨tail, empty⟩ := within
      simp only [Place.Within, FrontPlace.Within, tail, empty]
      exact .single s.next value
  | readsHead => exact .inl (h.fields here rfl rfl rfl ⟨within.1, rfl, within.2⟩ rfl)
  | links first =>
      obtain ⟨shows, head, several⟩ := within
      refine .inl (h.accesses here rfl rfl rfl ⟨?_, ?_, several⟩ rfl (.inr rfl)
        fun x different => ?_)
      · apply shows.frame
        intro a inside
        apply Function.update_of_ne
        rintro rfl
        exact new inside
      · exact (Function.update_self _ _ _).trans head.symm
      · by_cases same : x = value
        · simp only [Has, h.pending, here, same]
          rfl
        · exact absurd (Function.update_of_ne same _ _) different
  | setsHead =>
      obtain ⟨shows, link, several⟩ := within
      refine .inl (h.fields here rfl rfl rfl ?_ rfl)
      have threaded := shows.threaded
      cases head : (s.queues i).head with
      | none => exact absurd (List.head?_eq_none_iff.mp (shows.head.symm.trans head)) several
      | some first =>
          rw [head] at threaded link
          have grown := threaded.prepend new
          rwa [← link, Function.update_eq_self] at grown
  | counts =>
      refine .inr ⟨_, .serves ((h.pending c).trans (by rw [here]; rfl)), ?_⟩
      refine h.serves here rfl _ rfl (fun j other => Function.update_of_ne other _ _) ?_
      simp only [Request.serve, listStep, Function.update_self]
      refine ⟨within, ?_⟩
      simp only [h.size i, List.length_cons, Nat.mod_add_mod]

theorem pop (h : Stands seen s t) {place : PopPlace} (here : s.place c = .pop i place) :
    Matched seen (s.access c i (Sections.pop i (s.queues i) s.next place)) t := by
  have within : place.Within (s.queues i) s.next (t.object i) :=
    h.within here rfl
  cases place with
  | reads =>
      have shows : (s.queues i).Shows s.next (t.object i) := within
      have first := shows.head
      cases head : (s.queues i).head with
      | none =>
          rw [head] at first
          have empty : t.object i = [] := List.head?_eq_none_iff.mp first.symm
          refine .inr ⟨_, .serves ((h.pending c).trans (by rw [here]; rfl)), ?_⟩
          have served := h.serves (q := s.queues i) here rfl (.locked (.pop i)) rfl
            (fun j other => Function.update_of_ne other _ _) ?_
          · simpa only [Sections.pop, head, Request.serve, listStep, ← first] using served
          · simpa only [Request.serve, listStep, Function.update_self, empty,
              List.tail_nil] using shows
      | some result =>
          simp only [Sections.pop, head]
          exact .inl (h.fields here rfl rfl rfl ⟨shows, head⟩ rfl)
  | compares result =>
      obtain ⟨shows, head⟩ := within
      have threaded := shows.threaded
      refine .inl (h.fields here rfl ?_ ?_ ?_ rfl)
      · split_ifs <;> rfl
      · split_ifs <;> rfl
      rw [head] at threaded
      obtain ⟨rest, list⟩ := threaded.eq_cons
      split_ifs with alone
      · rw [list] at threaded
        have empty := threaded.tail_cons
        rw [if_pos alone.symm] at empty
        exact ⟨shows, by rw [list, empty]⟩
      · exact ⟨shows, head, fun same => alone same.symm⟩
  | clearsTail result => exact .inl (h.fields here rfl rfl rfl ⟨rfl, within.2⟩ rfl)
  | clearsHead result =>
      obtain ⟨tail, alone⟩ := within
      refine .inl (h.fields here rfl rfl rfl ⟨?_, ?_⟩ rfl)
      · rw [alone, List.head?_cons]
      · simp only [tail, alone, List.tail_cons]
        exact .empty s.next
  | follows result =>
      exact .inl (h.fields here rfl rfl rfl ⟨within.1, within.2.1, within.2.2, rfl⟩ rfl)
  | advances result behind =>
      obtain ⟨shows, head, several, link⟩ := within
      have threaded := shows.threaded
      rw [head] at threaded
      obtain ⟨rest, list⟩ := threaded.eq_cons
      rw [list] at threaded
      have dropped := threaded.tail_cons
      rw [if_neg several, link] at dropped
      refine .inl (h.fields here rfl rfl rfl ⟨?_, ?_⟩ rfl)
      · rw [list, List.head?_cons]
      · rwa [list, List.tail_cons]
  | uncounts result =>
      obtain ⟨first, threaded⟩ := within
      obtain ⟨rest, list⟩ := List.head?_eq_some_iff.mp first
      refine .inr ⟨_, .serves ((h.pending c).trans (by rw [here]; rfl)), ?_⟩
      have size := h.size i
      rw [list, List.length_cons] at size
      have shrunk : ((s.queues i).size + 2 ^ 32 - 1) % 2 ^ 32 = rest.length % 2 ^ 32 := by
        omega
      have served :=
        h.serves (q :=
          { s.queues i with size := ((s.queues i).size + 2 ^ 32 - 1) % 2 ^ 32 }) here rfl
        (.locked (.pop i)) rfl (fun j other => Function.update_of_ne other _ _) ?_
      · simpa only [Sections.pop, Request.serve, listStep, first] using served
      · simp only [Request.serve, listStep, Function.update_self]
        exact ⟨threaded, by simpa only [list, List.tail_cons] using shrunk⟩

theorem acquires (h : Stands seen s t) {op : QueueOp ι} (here : s.place c = .tries op)
    (unlocked : s.lock op.queue = false) :
    Stands seen { s.goes c (enter op) with lock := Function.update s.lock op.queue true } t := by
  have entered : (enter op).holds = some op.queue := by
    cases op <;> rfl
  have nobody : ∀ d, (s.place d).holds ≠ some op.queue := by
    intro d holds
    rw [(h.held d _ holds).1] at unlocked
    cases unlocked
  have before : (s.place c).holds = none := by
    rw [here]
    rfl
  have shows := (h.free _ nobody).2
  refine ⟨h.kept, fun d => ?_, h.size, fun d e j first second => ?_, fun d j held => ?_,
    fun j free => ?_⟩
  · by_cases same : d = c
    · subst same
      rw [h.pending, here]
      simp only [Callers.goes, Function.update_self]
      cases op <;> rfl
    · simp only [Callers.goes, Function.update_of_ne same, h.pending]
  · by_cases left : d = c <;> by_cases right : e = c
    · exact left.trans right.symm
    · subst left
      simp only [Callers.goes, Function.update_self, entered, Function.update_of_ne right]
        at first second
      cases first
      exact absurd second (nobody e)
    · subst right
      simp only [Callers.goes, Function.update_self, entered, Function.update_of_ne left]
        at first second
      cases second
      exact absurd first (nobody d)
    · simp only [Callers.goes, Function.update_of_ne left, Function.update_of_ne right]
        at first second
      exact h.sole d e j first second
  · by_cases same : d = c
    · subst same
      simp only [Callers.goes, Function.update_self, entered] at held ⊢
      cases held
      refine ⟨Function.update_self _ _ _, ?_⟩
      cases op <;> exact shows
    · simp only [Callers.goes, Function.update_of_ne same] at held ⊢
      obtain ⟨locked, inside⟩ := h.held d j held
      refine ⟨?_, inside⟩
      rwa [Function.update_of_ne]
      rintro rfl
      exact nobody d held
  · have other : j ≠ op.queue := by
      rintro rfl
      exact free c (by simp only [Callers.goes, Function.update_self, entered])
    simp only [Function.update_of_ne other]
    refine h.free j fun d holds => free d ?_
    by_cases same : d = c
    · subst same
      rw [before] at holds
      cases holds
    · simpa only [Callers.goes, Function.update_of_ne same] using holds

theorem releases (h : Stands seen s t) {reply : Reply} (here : s.place c = .releases i reply) :
    Stands seen { s.goes c (.leaves reply) with lock := Function.update s.lock i false } t := by
  have had : (s.place c).holds = some i := by
    rw [here]
    rfl
  have shows : (s.queues i).Shows s.next (t.object i) := h.within here rfl
  have others : ∀ d j, (Function.update s.place c (.leaves reply) d).holds = some j →
      d ≠ c ∧ (s.place d).holds = some j := by
    intro d j holds
    by_cases same : d = c
    · subst same
      rw [Function.update_self] at holds
      cases holds
    · rw [Function.update_of_ne same] at holds
      exact ⟨same, holds⟩
  refine ⟨h.kept, fun d => ?_, h.size, fun d e j first second => ?_, fun d j held => ?_,
    fun j free => ?_⟩
  · by_cases same : d = c
    · subst same
      rw [h.pending, here]
      simp only [Callers.goes, Function.update_self]
      rfl
    · simp only [Callers.goes, Function.update_of_ne same, h.pending]
  · exact h.sole d e j (others d j first).2 (others e j second).2
  · obtain ⟨other, holds⟩ := others d j held
    obtain ⟨locked, inside⟩ := h.held d j holds
    simp only [Callers.goes, Function.update_of_ne other]
    refine ⟨?_, inside⟩
    rwa [Function.update_of_ne]
    rintro rfl
    exact other (h.sole d c j holds had)
  · by_cases same : j = i
    · subst same
      exact ⟨Function.update_self _ _ _, shows⟩
    · simp only [Function.update_of_ne same]
      refine h.free j fun d holds => free d ?_
      have other : d ≠ c := by
        rintro rfl
        exact same (Option.some.inj (holds.symm.trans had))
      simpa only [Callers.goes, Function.update_of_ne other] using holds

/-- A caller in a call can always go on. -/
theorem executes (h : Stands seen s t) (busy : s.place c ≠ .idle)
    (going : ∀ reply, s.place c ≠ .leaves reply) :
    ∃ s', s.execute c = some s' ∧ Matched seen s' t := by
  cases here : s.place c with
  | idle => exact absurd here busy
  | leaves reply => exact absurd here (going reply)
  | waits op =>
      have executed :
          s.execute c = some (s.goes c (if s.lock op.queue then .waits op else .tries op)) := by
        simp only [Callers.execute, here]
      refine ⟨_, executed, .inl (h.proceeds (by rw [here]; rfl) ?_ ?_)⟩
      · split_ifs <;> rfl
      · rw [here]
        split_ifs <;> rfl
  | tries op =>
      cases taken : s.lock op.queue with
      | true =>
          refine ⟨s.goes c (.waits op),
            by simp only [Callers.execute, here, taken, if_true], .inl ?_⟩
          exact h.proceeds (by rw [here]; rfl) rfl (by rw [here]; rfl)
      | false =>
          refine ⟨_, ?_, .inl (h.acquires here taken)⟩
          simp only [Callers.execute, here, taken, Bool.false_eq_true, if_false]
  | push i value place =>
      obtain ⟨result, taken, matched⟩ := h.push here
      exact ⟨_, by simp only [Callers.execute, here, taken, Option.map_some], matched⟩
  | pushFront i value place => exact ⟨_, by simp only [Callers.execute, here], h.pushFront here⟩
  | pop i place => exact ⟨_, by simp only [Callers.execute, here], h.pop here⟩
  | releases i reply => exact ⟨_, by simp only [Callers.execute, here], .inl (h.releases here)⟩
  | loads i =>
      have waiting : t.pending c = .called (.getSize i) := (h.pending c).trans (by rw [here]; rfl)
      have executed : s.execute c = some (s.goes c (.leaves (.size (s.queues i).getSize))) := by
        simp only [Callers.execute, here]
      refine ⟨_, executed, .inr ⟨_, .serves waiting, ?_⟩⟩
      refine h.goes (by rw [here]; rfl) rfl ?_ (h.kept.serves waiting)
      simp only [Place.pending, Request.serve, Queue.getSize, h.size i]

theorem step (h : Stands seen s t) {s' : Callers κ ι} {label : Label κ ι} (step : s.Step label s')
    (follows : ∀ e ∈ label.event, Follows seen e) :
    ∃ labels t', Run (Atomic.Step Request.serve) t labels t' ∧ history id labels =
      history Label.event [label] ∧
      Stands (seen ++ history Label.event [label]) s' t' := by
  cases label with
  | calls caller request =>
      obtain ⟨free, same⟩ := (Option.ite_none_right_eq_some ..).mp step
      obtain rfl := Option.some.inj same
      have idle : t.pending caller = .idle := (h.pending caller).trans (by rw [free]; rfl)
      refine ⟨[some (.calls caller request)], _, .single (.calls request idle), rfl, ?_⟩
      refine h.goes (by rw [free]; rfl) ?_ ?_ (h.kept.calls request (follows _ rfl))
      · cases request <;> rfl
      · cases request <;> rfl
  | returns caller reply =>
      obtain ⟨ready, same⟩ := (Option.ite_none_right_eq_some ..).mp step
      obtain rfl := Option.some.inj same
      have answered : t.pending caller = .answered reply :=
        (h.pending caller).trans (by rw [ready]; rfl)
      refine ⟨[some (.returns caller reply)], _, .single (.returns answered), rfl, ?_⟩
      exact h.goes (by rw [ready]; rfl) rfl rfl (h.kept.returns answered)
  | executes caller =>
      have taken : s.execute caller = some s' := step
      obtain ⟨u, same, matched⟩ :=
        h.executes (c := caller) (by rintro idle; simp [Callers.execute, idle] at taken)
        (by rintro reply leaves; simp [Callers.execute, leaves] at taken)
      obtain rfl := Option.some.inj (taken.symm.trans same)
      rw [show history Label.event [(.executes caller : Label κ ι)] = [] from rfl, List.append_nil]
      rcases matched with stands | ⟨t', served, stands⟩
      · exact ⟨[], t, .start t, rfl, stands⟩
      · exact ⟨[none], t', .single served, rfl, stands⟩

/-- Along a run from the start. -/
theorem run {next : Links} {labels : List (Label κ ι)}
    (run : Run Callers.Step (.fresh κ ι next) labels s)
    (proper : Proper Follows (history Label.event labels)) :
    ∃ labels' t, Run (Atomic.Step Request.serve) (.fresh κ (Request ι) Reply fun _ =>
      []) labels' t ∧
      history id labels' = history Label.event labels ∧ Stands (history Label.event labels) s t :=
  run.simulate (fun _ _ _ _ _ stands taken follows => stands.step taken follows) (start next) proper

end Stands

/-- Whatever the order in which the callers take turns, their calls return what they would
    return if each had been served at once, somewhere between its beginning and its end, by a
    list for each queue; a queue that nobody is in shows its list, and the size is that of
    the list even while somebody is. -/
theorem calls_linearizable [DecidableEq κ] [DecidableEq ι] {next : Links}
    {labels : List (Label κ ι)} {s : Callers κ ι}
    (run : Run Callers.Step (.fresh κ ι next) labels s)
    (proper : Proper Follows (history Label.event labels)) :
    ∃ lists, Linearizable Request.serve (fun _ => []) (history Label.event labels) lists ∧
      (∀ i, s.lock i = false → (s.queues i).Shows s.next (lists i)) ∧
      ∀ i, (s.queues i).getSize = (lists i).length % 2 ^ 32 := by
  obtain ⟨labels', t, run', same, stands⟩ := Stands.run run proper
  refine ⟨t.object, ⟨labels', t.pending, run', same⟩,
    fun i unlocked => (stands.free i ?_).2, stands.size⟩
  intro c holds
  rw [(stands.held c i holds).1] at unlocked
  cases unlocked

/-- One caller pushes a block while another is about to pop, and finds the lock taken. -/
def contended : List (Label Bool Unit) :=
  [.calls true (.locked (.push () 1)), .calls false (.locked (.pop ())), .executes true,
    .executes false, .executes true, .executes false, .executes true, .executes true,
    .executes true, .executes false, .executes true, .executes true, .returns true .done] ++
  List.replicate 8 (.executes false) ++ [.returns false (.block (some 1))]

theorem contended_proper : Proper Follows (history Label.event contended) := by
  have seen : history Label.event contended = ((([] ++ [.calls true (.locked (.push () 1))]) ++
      [.calls false (.locked (.pop ()))]) ++ [.returns true .done]) ++
        [.returns false (.block (some 1))] := rfl
  rw [seen]
  refine (((Proper.nil.snoc ?_).snoc ?_).snoc trivial).snoc trivial
  · rintro value ⟨⟩
    rfl
  · rintro value ⟨⟩

theorem calls_linearizable_contended :
    ∃ s lists, contended.foldlM Callers.after? (.fresh Bool Unit fun _ => none) = some s ∧
      Linearizable Request.serve (fun _ => []) (history Label.event contended) lists ∧
      (∀ i, s.lock i = false → (s.queues i).Shows s.next (lists i)) ∧
      ∀ i, (s.queues i).getSize = (lists i).length % 2 ^ 32 := by
  obtain ⟨lists, same⟩ := calls_linearizable (Run.of_foldlM rfl) contended_proper
  exact ⟨_, lists, rfl, same⟩

/-- The block whose `next` field a caller is about to load or store. -/
def Place.follows : Place ι → Option Task
  | .push _ _ (.links last) => last
  | .pushFront _ value (.links _) => some value
  | .pop _ (.follows result) => some result
  | _ => none

theorem Stands.follows {seen : List (Event κ (Request ι) Reply)} {s : Callers κ ι} {t : Lists κ ι}
    (h : Stands seen s t) {c : κ} {value : Task} (follows : (s.place c).follows = some value) :
    ∃ a, Has t a value ∧ (a = .caller c ∨ ∃ i, a = .queue i ∧ (s.place c).holds = some i) := by
  cases here : s.place c with
  | push i new place =>
      rw [here] at follows
      cases place with
      | links last =>
          have within : (PushPlace.links last).Within (s.queues i) s.next (t.object i) new :=
            h.within here rfl
          obtain ⟨shows, tail, -⟩ := within
          have final : (t.object i).getLast? = some value :=
            shows.threaded.last.symm.trans (tail.trans follows)
          exact ⟨.queue i, List.mem_of_getLast? final, .inr ⟨i, rfl, rfl⟩⟩
      | _ => cases follows
  | pushFront i new place =>
      rw [here] at follows
      cases place with
      | links first =>
          cases follows
          refine ⟨.caller c, ?_, .inl rfl⟩
          simp only [Has, h.pending, here]
          rfl
      | _ => cases follows
  | pop i place =>
      rw [here] at follows
      cases place with
      | follows result =>
          cases follows
          have within : (PopPlace.follows value).Within (s.queues i) s.next (t.object i) :=
            h.within here rfl
          obtain ⟨shows, head, -⟩ := within
          exact ⟨.queue i, List.mem_of_head? (shows.head.symm.trans head), .inr ⟨i, rfl, rfl⟩⟩
      | _ => cases follows
  | _ =>
      rw [here] at follows
      cases follows

/-- Two callers are never in sections of one queue, nor about to use the link of one block,
    and a caller that is in a call can go on: it stores through no null pointer. -/
theorem sections_exclude [DecidableEq κ] [DecidableEq ι] {next : Links} {labels : List (Label κ ι)}
    {s : Callers κ ι} (run : Run Callers.Step (.fresh κ ι next) labels s)
    (proper : Proper Follows (history Label.event labels)) :
    (∀ i, s.lock i = true ↔ ∃ c, (s.place c).holds = some i) ∧
      (∀ c d i, (s.place c).holds = some i → (s.place d).holds = some i → c = d) ∧
      (∀ c d value, (s.place c).follows = some value → (s.place d).follows = some value → c = d) ∧
      ∀ c, s.execute c = none → s.place c = .idle ∨ ∃ reply, s.place c = .leaves reply := by
  obtain ⟨-, t, -, -, stands⟩ := Stands.run run proper
  refine ⟨fun i => ⟨fun locked => ?_, fun ⟨c, holds⟩ => (stands.held c i holds).1⟩, stands.sole,
    fun c d value first second => ?_, fun c stuck => ?_⟩
  · by_contra nobody
    rw [(stands.free i (not_exists.mp nobody)).1] at locked
    cases locked
  · obtain ⟨a, has, place⟩ := stands.follows first
    obtain ⟨b, has', place'⟩ := stands.follows second
    obtain rfl := stands.kept.alone a b value has has'
    rcases place with rfl | ⟨i, rfl, holds⟩ <;> rcases place' with same | ⟨j, same, holds'⟩
    · exact Keeper.caller.inj same
    · cases same
    · cases same
    · cases same
      exact stands.sole c d i holds holds'
  · by_contra neither
    obtain ⟨busy, going⟩ := not_or.mp neither
    obtain ⟨s', taken, -⟩ := stands.executes busy fun reply leaves => going ⟨reply, leaves⟩
    rw [stuck] at taken
    cases taken

/-- The first caller has the lock and the second finds that out. -/
theorem sections_exclude_contended :
    ∃ s, (contended.take 6).foldlM Callers.after? (.fresh Bool Unit fun _ => none) = some s ∧
      (s.lock () = true ↔ ∃ c, (s.place c).holds = some ()) ∧
      ∀ c d, (s.place c).holds = some () → (s.place d).holds = some () → c = d := by
  have run : Run Callers.Step (.fresh Bool Unit fun _ => none) (contended.take 6) _ :=
    .of_foldlM rfl
  obtain ⟨locked, sole, -⟩ := sections_exclude run contended_proper.left
  exact ⟨_, rfl, locked (), fun c d => sole c d ()⟩

def PushPlace.left : PushPlace → Nat
  | .tests => 6
  | .readsTail => 5
  | .fillsTail | .links _ => 4
  | .fillsHead | .setsTail => 3
  | .counts => 2

def FrontPlace.left : FrontPlace → Nat
  | .tests => 6
  | .readsHead => 5
  | .fillsTail | .links _ => 4
  | .fillsHead | .setsHead => 3
  | .counts => 2

def PopPlace.left : PopPlace → Nat
  | .reads => 6
  | .compares _ => 5
  | .clearsTail _ | .follows _ => 4
  | .clearsHead _ | .advances _ _ => 3
  | .uncounts _ => 2

/-- At most so many instructions are left of a call that has the lock or finds it free. -/
def Place.left : Place ι → Nat
  | .idle | .leaves _ => 0
  | .waits _ => 8
  | .tries _ => 7
  | .push _ _ place => place.left
  | .pushFront _ _ place => place.left
  | .pop _ place => place.left
  | .releases _ _ | .loads _ => 1

/-- Nobody has the lock that a caller is after. -/
def Callers.Clear (s : Callers κ ι) (c : κ) : Prop :=
  ∀ op, s.place c = .waits op ∨ s.place c = .tries op → s.lock op.queue = false

/-- A step within a call, or out of one. -/
def Label.Onward : Label κ ι → Prop
  | .calls _ _ => False
  | .executes _ | .returns _ _ => True

section Progress

theorem push_left {i : ι} {value : Task} {q : Queue} {next : Links} {place : PushPlace}
    {result : Queue × Links × Place ι} (taken : push i value q next place = some result) :
    result.2.2.left < place.left ∧ result.2.2.holds = some i := by
  cases place with
  | tests =>
      cases taken
      dsimp only
      split_ifs <;> simp [Place.left, PushPlace.left, Place.holds]
  | links last =>
      cases last with
      | none => cases taken
      | some last =>
          cases taken
          simp [Place.left, PushPlace.left, Place.holds]
  | _ =>
      cases taken
      simp [Place.left, PushPlace.left, Place.holds]

theorem pushFront_left {i : ι} {value : Task} {q : Queue} {next : Links} (place : FrontPlace) :
    (pushFront i value q next place).2.2.left < place.left ∧
      (pushFront i value q next place).2.2.holds = some i := by
  cases place with
  | tests =>
      dsimp only [pushFront]
      split_ifs <;> simp [Place.left, FrontPlace.left, Place.holds]
  | _ => simp [pushFront, Place.left, FrontPlace.left, Place.holds]

theorem pop_left {i : ι} {q : Queue} {next : Links} (place : PopPlace) :
    (pop i q next place).2.2.left < place.left ∧ (pop i q next place).2.2.holds = some i := by
  cases place with
  | reads =>
      dsimp only [pop]
      split <;> simp [Place.left, PopPlace.left, Place.holds]
  | compares result =>
      dsimp only [pop]
      split_ifs <;> simp [Place.left, PopPlace.left, Place.holds]
  | _ => simp [pop, Place.left, PopPlace.left, Place.holds]

variable {s s' : Callers κ ι} {c : κ}

theorem clear_of {place : Place ι} (here : s.place c = place) (waits : ∀ op, place ≠ .waits op)
    (tries : ∀ op, place ≠ .tries op) : s.Clear c := by
  rintro op (same | same)
  · exact absurd (here.symm.trans same) (waits op)
  · exact absurd (here.symm.trans same) (tries op)

theorem clear_of_holds {i : ι} (holds : (s.place c).holds = some i) : s.Clear c := by
  refine clear_of rfl (fun op same => ?_) fun op same => ?_ <;>
  · rw [same] at holds
    cases holds

variable [DecidableEq κ] [DecidableEq ι]

/-- The other callers stay where they are. -/
theorem Callers.execute_others {d : κ} (taken : s.execute c = some s') (other : d ≠ c) :
    s'.place d = s.place d := by
  cases here : s.place c with
  | idle => simp only [execute, here, reduceCtorEq] at taken
  | leaves reply => simp only [execute, here, reduceCtorEq] at taken
  | tries op =>
      simp only [execute, here] at taken
      split_ifs at taken <;>
      · cases taken
        exact Function.update_of_ne other _ _
  | push i value place =>
      simp only [execute, here, Option.map_eq_some_iff] at taken
      obtain ⟨result, -, rfl⟩ := taken
      exact Function.update_of_ne other _ _
  | _ =>
      simp only [execute, here, Option.some.injEq] at taken
      subst taken
      exact Function.update_of_ne other _ _

/-- A call that does not have to wait gets closer to its end with each instruction. -/
theorem Callers.execute_left (taken : s.execute c = some s') (clear : s.Clear c) :
    (s'.place c).left < (s.place c).left ∧ s'.place c ≠ .idle ∧ s'.Clear c := by
  have accessed :
      ∀ {i : ι} {result : Queue × Links × Place ι} {left : Nat}, s.access c i result = s' →
      result.2.2.left < left ∧ result.2.2.holds = some i →
      (s'.place c).left < left ∧ s'.place c ≠ .idle ∧ s'.Clear c := by
    rintro i result left rfl ⟨less, holds⟩
    have here : (s.access c i result).place c = result.2.2 := Function.update_self _ _ _
    refine ⟨here ▸ less, fun idle => ?_, clear_of_holds (here ▸ holds)⟩
    rw [← here, idle] at holds
    cases holds
  have place : ∀ (p : Place ι), (s.goes c p).place c = p := fun p => Function.update_self _ _ _
  cases here : s.place c with
  | idle => simp only [execute, here, reduceCtorEq] at taken
  | leaves reply => simp only [execute, here, reduceCtorEq] at taken
  | waits op =>
      have free := clear op (.inl here)
      simp only [execute, here, free, Bool.false_eq_true, if_false, Option.some.injEq] at taken
      subst taken
      refine ⟨by simp [place, Place.left], by simp [place], ?_⟩
      rintro other (same | same)
      · rw [place] at same
        cases same
      · rw [place] at same
        cases same
        exact free
  | tries op =>
      have free := clear op (.inr here)
      simp only [execute, here, free, Bool.false_eq_true, if_false, Option.some.injEq] at taken
      subst taken
      have entered : (enter op).left = 6 ∧ (enter op).holds = some op.queue := by
        cases op <;> exact ⟨rfl, rfl⟩
      have there :
          ({ s.goes c (enter op) with
            lock := Function.update s.lock op.queue true } : Callers κ ι).place c = enter op :=
        place _
      refine ⟨?_, fun idle => ?_, clear_of_holds (i := op.queue) ?_⟩
      · rw [there, entered.1]
        exact Nat.lt_succ_self 6
      · rw [there] at idle
        rw [idle] at entered
        cases entered.2
      · rw [there, entered.2]
  | push i value place =>
      simp only [execute, here, Option.map_eq_some_iff] at taken
      obtain ⟨result, made, same⟩ := taken
      exact accessed same (push_left made)
  | pushFront i value place =>
      simp only [execute, here, Option.some.injEq] at taken
      exact accessed taken (pushFront_left place)
  | pop i place =>
      simp only [execute, here, Option.some.injEq] at taken
      exact accessed taken (pop_left place)
  | releases i reply =>
      simp only [execute, here, Option.some.injEq] at taken
      subst taken
      exact ⟨by simp [place, Place.left], by simp [place], clear_of (place _) nofun nofun⟩
  | loads i =>
      simp only [execute, here, Option.some.injEq] at taken
      subst taken
      exact ⟨by simp [place, Place.left], by simp [place], clear_of (place _) nofun nofun⟩

/-- A call that does not have to wait can be brought to its end on its own. -/
theorem Stands.finish {seen : List (Event κ (Request ι) Reply)} {t : Lists κ ι}
    (h : Stands seen s t) (busy : s.place c ≠ .idle) (clear : s.Clear c) :
    ∃ labels u seen' t', Run Callers.Step s labels u ∧ (∀ label ∈ labels, label.Onward) ∧
      u.place = Function.update s.place c .idle ∧ Stands seen' u t' := by
  induction left : (s.place c).left using Nat.strong_induction_on generalizing s t with
  | _ n ih =>
      by_cases going : ∃ reply, s.place c = .leaves reply
      · obtain ⟨reply, leaves⟩ := going
        have taken : s.Step (.returns c reply) (s.goes c .idle) := by
          simp only [Callers.Step, Callers.after?, leaves, if_true]
        obtain ⟨-, t', -, -, stands⟩ := h.step taken (by rintro e ⟨⟩; trivial)
        exact ⟨_, _, _, t', .single taken, by simp [Label.Onward], rfl, stands⟩
      · obtain ⟨s', taken, matched⟩ := h.executes busy fun reply leaves => going ⟨reply, leaves⟩
        obtain ⟨less, busy', clear'⟩ := Callers.execute_left taken clear
        have stands : ∃ t', Stands seen s' t' := by
          rcases matched with stands | ⟨t', -, stands⟩
          · exact ⟨t, stands⟩
          · exact ⟨t', stands⟩
        obtain ⟨t', stands⟩ := stands
        obtain ⟨labels, u, seen', t'', run, onward, idle, final⟩ :=
          ih _ (left ▸ less) stands busy' clear' rfl
        have first : s.Step (.executes c) s' := taken
        refine ⟨_, u, seen', t'', (Run.single first).trans run, ?_, ?_, final⟩
        · simpa [Label.Onward] using onward
        · rw [idle]
          funext d
          by_cases same : d = c
          · rw [same, Function.update_self, Function.update_self]
          · rw [Function.update_of_ne same, Function.update_of_ne same,
              Callers.execute_others taken same]

/-- So can all calls, those that have a lock first. -/
theorem Stands.finish_all {seen : List (Event κ (Request ι) Reply)} {t : Lists κ ι}
    (h : Stands seen s t) (busy : Finset κ) (rest : ∀ c, c ∉ busy → s.place c = .idle) :
    ∃ labels u seen' t', Run Callers.Step s labels u ∧ (∀ label ∈ labels, label.Onward) ∧
      (∀ c, u.place c = .idle) ∧ Stands seen' u t' := by
  induction busy using Finset.strongInduction generalizing s seen t with
  | _ busy ih =>
      by_cases done : ∀ c, s.place c = .idle
      · exact ⟨[], s, seen, t, .start s, by simp, done, h⟩
      have chosen : ∃ c, s.place c ≠ .idle ∧ s.Clear c := by
        by_cases inside : ∃ c i, (s.place c).holds = some i
        · obtain ⟨c, i, holds⟩ := inside
          refine ⟨c, fun idle => ?_, clear_of_holds holds⟩
          rw [idle] at holds
          cases holds
        · obtain ⟨c, going⟩ := not_forall.mp done
          exact ⟨c, going, fun op _ => (h.free op.queue fun d holds => inside ⟨d, _, holds⟩).1⟩
      obtain ⟨c, going, clear⟩ := chosen
      have member : c ∈ busy := by
        by_contra outside
        exact going (rest c outside)
      obtain ⟨labels, u, seen', t', run, onward, idle, stands⟩ := h.finish going clear
      obtain ⟨more, v, seen'', t'', run', onward', all, final⟩ :=
        ih (busy.erase c) (Finset.erase_ssubset member) stands fun d outside => by
          rw [idle]
          by_cases same : d = c
          · rw [same, Function.update_self]
          · rw [Function.update_of_ne same]
            exact rest d fun inside => outside (Finset.mem_erase.mpr ⟨same, inside⟩)
      refine ⟨labels ++ more, v, seen'', t'', run.trans run', fun label inside => ?_, all, final⟩
      rcases List.mem_append.mp inside with first | second
      · exact onward label first
      · exact onward' label second

/-- In a run only so many callers have begun a call. -/
theorem finitely_many {next : Links} {labels : List (Label κ ι)}
    (run : Run Callers.Step (.fresh κ ι next) labels s) :
    ∃ busy : Finset κ, ∀ c, c ∉ busy → s.place c = .idle := by
  refine run.invariant (P := fun s => ∃ busy : Finset κ, ∀ c, c ∉ busy → s.place c = .idle) ⟨∅,
    fun _ _ => rfl⟩ ?_
  rintro s label s' ⟨busy, rest⟩ step
  have moved : ∃ c, ∀ d, d ≠ c → s'.place d = s.place d := by
    cases label with
    | executes caller => exact ⟨caller, fun d other => Callers.execute_others step other⟩
    | calls caller request | returns caller reply =>
        obtain ⟨-, same⟩ := (Option.ite_none_right_eq_some ..).mp step
        obtain rfl := Option.some.inj same
        exact ⟨caller, fun d other => Function.update_of_ne other _ _⟩
  obtain ⟨c, others⟩ := moved
  refine ⟨insert c busy, fun d outside => ?_⟩
  rw [Finset.mem_insert, not_or] at outside
  rw [others d outside.1]
  exact rest d outside.2

end Progress

/-- From wherever the callers are, without another call being made, all of them can come to
    the end of theirs: none waits for a lock that is never released. -/
theorem calls_finish [DecidableEq κ] [DecidableEq ι] {next : Links} {labels : List (Label κ ι)}
    {s : Callers κ ι} (run : Run Callers.Step (.fresh κ ι next) labels s)
    (proper : Proper Follows (history Label.event labels)) :
    ∃ more u, Run Callers.Step s more u ∧ (∀ label ∈ more, label.Onward) ∧
      (∀ c, u.place c = .idle) ∧ ∀ i, u.lock i = false := by
  obtain ⟨-, t, -, -, stands⟩ := Stands.run run proper
  obtain ⟨busy, rest⟩ := finitely_many run
  obtain ⟨more, u, seen, t', run', onward, idle, final⟩ := stands.finish_all busy rest
  refine ⟨more, u, run', onward, idle, fun i => (final.free i fun c holds => ?_).1⟩
  rw [idle c] at holds
  cases holds

theorem calls_finish_contended :
    ∃ s, (contended.take 6).foldlM Callers.after? (.fresh Bool Unit fun _ => none) = some s ∧
      ∃ more u, Run Callers.Step s more u ∧ (∀ label ∈ more, label.Onward) ∧
        (∀ c, u.place c = .idle) ∧ ∀ i, u.lock i = false := by
  have run : Run Callers.Step (.fresh Bool Unit fun _ => none) (contended.take 6) _ :=
    .of_foldlM rfl
  exact ⟨_, rfl, calls_finish run contended_proper.left⟩

end Sections

end Mykonos.Tasks
