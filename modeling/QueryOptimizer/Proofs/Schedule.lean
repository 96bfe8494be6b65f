import QueryOptimizer.DependencyOrder
import QueryOptimizer.Proofs.Arrangement

/-!
The bookkeeping of an ordering. The counts are those of the dependencies that are not emitted yet, so that an
element is ready when its count is zero, nothing is looked up in vain, and no count falls below zero.
-/
namespace QueryOptimizer.DependencyOrder
theorem countP_eq_countP_add_count {β : Type} [BEq β] [LawfulBEq β] {holds kept : β → Bool} {added : β}
    (apart : kept added = false) (either : ∀ one, holds one = (kept one || one == added)) (list : List β) :
    list.countP holds = list.countP kept + list.count added := by
  induction list with
  | nil => rfl
  | cons first rest ih =>
    rw [List.countP_cons, List.countP_cons, List.count_cons, ih, either first]
    by_cases same : first = added
    · simp [same, apart]
      omega
    · simp [same]
      omega

variable {α : Type} [Ord α] [Std.TransOrd α] {order : DependencyOrder α}
variable {before : List α} {schedule : Schedule} {element : α}

abbrev DependsOn (order : DependencyOrder α) (element dependency : α) : Prop :=
  dependency ∈ order.dependenciesOf element

theorem nodup_elements (order : DependencyOrder α) : order.elements.Nodup := by
  rw [List.nodup_iff_getElem?_ne_getElem?]
  intro one other lower bound same
  have found : order.elements[other]? = some order.elements[other] := List.getElem?_eq_getElem bound
  have first := (order.placed _ one).mpr (same.trans found)
  rw [(order.placed _ other).mpr found] at first
  exact absurd (Option.some.inj first) (Nat.ne_of_gt lower)

theorem emitReady_of_none (exhausted : schedule.ready.min? = none) : order.emitReady schedule = .ok [] := by
  rw [emitReady]
  have advanced : schedule.advance? = none := by rw [Schedule.advance?, exhausted, Option.map_none]
  split
  · rfl
  · rename_i same
    exact absurd (congrArg Subtype.val same) (by simp [Schedule.advance, advanced])

theorem emitReady_of_first {position : Nat} {next : Schedule} (first : schedule.ready.min? = some position)
    (found : order.elements[position]? = some element)
    (released : (schedule.dependantsOf position).foldlM Schedule.release (schedule.take position) = .ok next) :
    order.emitReady schedule = (order.emitReady next).map (element :: ·) := by
  have advanced : schedule.advance? = some (position, .ok next) := by
    rw [Schedule.advance?, first, Option.map_some, released]
  rw [emitReady]
  split
  · rename_i same
    exact absurd (congrArg Subtype.val same) (by simp [Schedule.advance, advanced])
  · rename_i same
    obtain ⟨rfl, rfl⟩ := Prod.mk.inj (Option.some.inj (advanced.symm.trans (congrArg Subtype.val same)))
    rw [found]

section Links
variable [Std.LawfulEqOrd α]

theorem mem_links {dependency : α} : (element, dependency) ∈ order.links ↔ order.DependsOn element dependency := by
  simp only [links, List.mem_flatMap, List.mem_map, Prod.exists, Prod.mk.injEq,
    Std.ExtTreeMap.mem_toList_iff_getElem?_eq_some, Std.ExtTreeSet.mem_toList, DependsOn, dependenciesOf]
  constructor
  · rintro ⟨_, needed, found, _, member, rfl, rfl⟩
    simpa [found] using member
  · intro member
    cases found : order.dependencies[element]? with
    | none => simp [found] at member
    | some needed => exact ⟨element, needed, found, dependency, by simpa [found] using member, rfl, rfl⟩

theorem nodup_links (order : DependencyOrder α) : order.links.Nodup := by
  refine List.nodup_flatMap.mpr ⟨fun entry _ => ?_, ?_⟩
  · refine List.Nodup.map (fun one other same => congrArg Prod.snd same) ?_
    exact Std.ExtTreeSet.distinct_toList.imp fun distinct same => distinct (Std.compare_eq_iff_eq.mpr same)
  · refine Std.ExtTreeMap.distinct_keys_toList.imp ?_
    rintro one other distinct ⟨element, dependency⟩ first second
    simp only [List.mem_map, Prod.mk.injEq] at first second
    obtain ⟨_, _, rfl, _⟩ := first
    obtain ⟨_, _, same, _⟩ := second
    exact distinct (Std.compare_eq_iff_eq.mpr same.symm)

end Links

variable [DecidableEq α]

theorem positionOf_ok (listed : element ∈ order.elements) :
    order.positionOf element = .ok (order.elements.idxOf element) := by
  rw [positionOf, (order.placed element _).mpr (List.getElem?_idxOf listed)]

/-- At the position of each element, the schedule counts what `count` gives for the element. -/
structure Counts (order : DependencyOrder α) (schedule : Schedule) (count : α → Nat) : Prop where
  size : schedule.pending.length = order.elements.length
  each : ∀ element ∈ order.elements,
    schedule.pending[order.elements.idxOf element]? = some (count element)

theorem Counts.pendingAt {count : α → Nat} (counts : order.Counts schedule count)
    (listed : element ∈ order.elements) :
    schedule.pendingAt (order.elements.idxOf element) = .ok (count element) := by
  rw [Schedule.pendingAt, counts.each element listed]

/-- A count that is set anew is that of one element only. -/
theorem Counts.set {count : α → Nat} {next : Schedule} (counts : order.Counts schedule count)
    (listed : element ∈ order.elements) (value : Nat)
    (changed : next.pending = schedule.pending.set (order.elements.idxOf element) value) :
    order.Counts next fun other => if other = element then value else count other := by
  refine ⟨by rw [changed, List.length_set, counts.size], fun other known => ?_⟩
  have bound : order.elements.idxOf element < schedule.pending.length :=
    counts.size ▸ List.idxOf_lt_length_iff.mpr listed
  rw [changed, List.getElem?_set]
  by_cases same : other = element
  · subst same
    simp [bound]
  · have apart : order.elements.idxOf element ≠ order.elements.idxOf other := fun equal =>
      same ((List.idxOf_inj listed).mp equal).symm
    rw [if_neg apart, if_neg same, counts.each other known]

/-- A release counts down, and makes an element ready of which nothing else is pending. -/
theorem release_ok {count : α → Nat} (counts : order.Counts schedule count)
    (listed : element ∈ order.elements) (positive : 0 < count element) :
    ∃ next, schedule.release (order.elements.idxOf element) = .ok next ∧
      (order.Counts next fun other => if other = element then count element - 1 else count other) ∧
      next.dependants = schedule.dependants ∧
      ∀ position, position ∈ next.ready ↔
        position ∈ schedule.ready ∨ count element = 1 ∧ order.elements.idxOf element = position := by
  obtain ⟨left, counted⟩ := Nat.exists_eq_succ_of_ne_zero positive.ne'
  have pending := counts.pendingAt listed
  rw [counted] at pending
  let position := order.elements.idxOf element
  let next : Schedule :=
    { schedule with
      pending := schedule.pending.set position left
      ready := if left = 0 then schedule.ready.insert position else schedule.ready }
  refine ⟨next, by rw [Schedule.release, pending]; rfl, counts.set listed _ (by rw [counted]; rfl), rfl, ?_⟩
  intro other
  by_cases last : left = 0
  · simp [next, position, last, counted, Std.ExtTreeSet.mem_insert, or_comm]
  · simp [next, last, counted]

theorem releaseEach_ok {count : α → Nat} {waiting : List α} (counts : order.Counts schedule count)
    (distinct : waiting.Nodup) (listed : ∀ element ∈ waiting, element ∈ order.elements)
    (positive : ∀ element ∈ waiting, 0 < count element) :
    ∃ next, (waiting.map order.elements.idxOf).foldlM Schedule.release schedule = .ok next ∧
      (order.Counts next fun other => if other ∈ waiting then count other - 1 else count other) ∧
      next.dependants = schedule.dependants ∧
      ∀ position, position ∈ next.ready ↔ position ∈ schedule.ready ∨
        ∃ element ∈ waiting, count element = 1 ∧ order.elements.idxOf element = position := by
  induction waiting generalizing schedule count with
  | nil => exact ⟨schedule, rfl, by simpa using counts, rfl, by simp⟩
  | cons first rest ih =>
    obtain ⟨outside, distinct⟩ := List.nodup_cons.mp distinct
    obtain ⟨listedFirst, listed⟩ := List.forall_mem_cons.mp listed
    obtain ⟨positiveFirst, positive⟩ := List.forall_mem_cons.mp positive
    -- The release of the first element leaves the counts of the rest as they were, since no element occurs twice.
    have unchanged : ∀ other ∈ rest, (if other = first then count first - 1 else count other) = count other :=
      fun other member => if_neg (ne_of_mem_of_not_mem member outside)
    obtain ⟨between, released, counts, kept, ready⟩ := release_ok counts listedFirst positiveFirst
    obtain ⟨next, each, counts, keptToo, readyToo⟩ := ih counts distinct listed
      fun other member => (unchanged other member).symm ▸ positive other member
    refine ⟨next, ?_, ?_, keptToo.trans kept, fun position => ?_⟩
    · simp only [List.map_cons, List.foldlM_cons, released, bind, Except.bind, each]
    · refine ⟨counts.size, fun other known => (counts.each other known).trans ?_⟩
      by_cases same : other = first
      · simp [same, outside]
      · simp [same]
    · rw [readyToo, ready, or_assoc, List.exists_mem_cons_iff]
      refine or_congr_right (or_congr_right (exists_congr fun other => and_congr_right fun member => ?_))
      rw [unchanged other member]

/-- The schedule once an element waits for a dependency for each of the `linked` pairs. -/
structure Links (order : DependencyOrder α) (linked : List (α × α)) (schedule : Schedule) : Prop where
  counts : order.Counts schedule fun element => linked.countP fun link => link.1 = element
  waiting : ∀ needed ∈ order.elements, schedule.dependantsOf (order.elements.idxOf needed) =
    (linked.filter fun link => link.2 = needed).map fun link => order.elements.idxOf link.1

theorem addLink_ok {linked : List (α × α)} {link : α × α} (links : order.Links linked schedule)
    (listed : link.1 ∈ order.elements) (needed : link.2 ∈ order.elements) :
    ∃ next, order.addLink schedule link = .ok next ∧ order.Links (linked ++ [link]) next := by
  have count := links.counts.pendingAt listed
  have linkedTo := links.waiting link.2 needed
  refine ⟨_, by
    rw [addLink, positionOf_ok listed, positionOf_ok needed]
    simp only [bind, Except.bind, Schedule.link, count, linkedTo, pure, Except.pure]
    rfl, ⟨by simp [links.counts.size], fun other known => ?_⟩, fun other known => ?_⟩
  · refine ((links.counts.set listed _ rfl).each other known).trans ?_
    rw [List.countP_append, List.countP_singleton]
    by_cases same : other = link.1
    · simp [same]
    · simp [same, eq_comm (a := link.1)]
  · have positions : order.elements.idxOf link.2 = order.elements.idxOf other ↔ link.2 = other :=
      List.idxOf_inj needed
    rw [List.filter_append, List.map_append, ← links.waiting other known]
    simp only [Schedule.dependantsOf, Std.ExtTreeMap.getElem?_insert, Std.compare_eq_iff_eq, positions]
    by_cases same : link.2 = other
    · subst same
      simp [← links.waiting link.2 needed, Schedule.dependantsOf]
    · simp [same]

theorem addLinks_ok {linked rest : List (α × α)} (links : order.Links linked schedule)
    (listed : ∀ link ∈ rest, link.1 ∈ order.elements ∧ link.2 ∈ order.elements) :
    ∃ next, rest.foldlM order.addLink schedule = .ok next ∧ order.Links (linked ++ rest) next := by
  induction rest generalizing linked schedule with
  | nil => exact ⟨schedule, rfl, by simpa using links⟩
  | cons link rest ih =>
    obtain ⟨⟨listedFirst, needed⟩, listed⟩ := List.forall_mem_cons.mp listed
    obtain ⟨between, added, links⟩ := addLink_ok links listedFirst needed
    obtain ⟨next, each, links⟩ := ih links listed
    refine ⟨next, ?_, by simpa using links⟩
    simp only [List.foldlM_cons, added, bind, Except.bind, each]

variable [Std.LawfulEqOrd α]

/-- How many dependencies of an element are not emitted yet. -/
def outstanding (order : DependencyOrder α) (before : List α) (element : α) : Nat :=
  order.links.countP fun link => link.1 = element ∧ link.2 ∉ before

theorem outstanding_eq_zero_iff :
    order.outstanding before element = 0 ↔
      ∀ dependency, order.DependsOn element dependency → dependency ∈ before := by
  simp only [outstanding, List.countP_eq_zero, Prod.forall, mem_links, decide_eq_true_eq, not_and, not_not]
  constructor
  · exact fun emitted dependency needed => emitted element dependency needed rfl
  · rintro emitted _ dependency needed rfl
    exact emitted dependency needed

/-- An element that is emitted is no longer outstanding for those that depend on it. -/
theorem outstanding_concat {emitted : α} (waiting : emitted ∉ before) :
    order.outstanding before element = order.outstanding (before ++ [emitted]) element +
      if order.DependsOn element emitted then 1 else 0 := by
  have once : order.links.count (element, emitted) = if order.DependsOn element emitted then 1 else 0 := by
    simp only [order.nodup_links.count, mem_links]
  rw [← once]
  refine countP_eq_countP_add_count (by simp) (fun link => ?_) order.links
  rw [Bool.eq_iff_iff]
  simp only [Bool.or_eq_true, beq_iff_eq, decide_eq_true_eq, Prod.ext_iff, List.mem_append,
    List.mem_singleton, not_or]
  by_cases same : link.2 = emitted
  · simp [same, waiting]
  · simp [same]

/-- What is ready once one more element is emitted: what was ready, and what waited for this element only. -/
theorem ready_concat_iff {other : α} (ready : Ready order.DependsOn order.elements before element)
    (settled : ∀ earlier ∈ before, ∀ dependency, order.DependsOn earlier dependency → dependency ∈ before) :
    Ready order.DependsOn order.elements (before ++ [element]) other ↔
      element ≠ other ∧ Ready order.DependsOn order.elements before other ∨
        order.DependsOn other element ∧ order.outstanding before other = 1 := by
  have fewer : order.outstanding before other = _ := outstanding_concat ready.waiting
  by_cases needed : order.DependsOn other element
  · rw [if_pos needed] at fewer
    have new : other ∉ before ∧ element ≠ other := by
      refine ⟨fun earlier => ready.waiting (settled other earlier element needed), ?_⟩
      rintro rfl
      exact ready.waiting (ready.free element needed)
    constructor
    · intro readyOther
      exact .inr ⟨needed, by rw [fewer, outstanding_eq_zero_iff.mpr readyOther.free]⟩
    · rintro (⟨-, readyOther⟩ | ⟨-, last⟩)
      · exact absurd (readyOther.free element needed) ready.waiting
      · rw [fewer] at last
        refine ⟨(mem_elements_of_dependency needed).1, ?_, outstanding_eq_zero_iff.mp (Nat.succ.inj last)⟩
        simpa [eq_comm] using new
  · constructor
    · intro readyOther
      have new : other ∉ before ∧ other ≠ element := by simpa using readyOther.waiting
      refine .inl ⟨new.2.symm, readyOther.listed, new.1, fun dependency needs => ?_⟩
      refine (List.mem_append.mp (readyOther.free dependency needs)).resolve_right fun last => ?_
      exact needed (List.mem_singleton.mp last ▸ needs)
    · rintro (⟨different, readyOther⟩ | ⟨needs, -⟩)
      · have free : ∀ dependency, order.DependsOn other dependency → dependency ∈ before ++ [element] :=
          fun dependency needs => List.mem_append_left _ (readyOther.free dependency needs)
        refine ⟨readyOther.listed, ?_, free⟩
        simpa [eq_comm] using And.intro readyOther.waiting different
      · exact absurd needs needed

/-- The schedule after `before` is emitted: what is pending, what waits for each element, and what is ready. -/
structure Tracks (order : DependencyOrder α) (before : List α) (schedule : Schedule) : Prop where
  counts : order.Counts schedule (order.outstanding before)
  waiting : ∀ needed ∈ order.elements, ∃ waiting : List α, waiting.Nodup ∧
    (∀ element, element ∈ waiting ↔ order.DependsOn element needed) ∧
    schedule.dependantsOf (order.elements.idxOf needed) = waiting.map order.elements.idxOf
  ready : ∀ position, position ∈ schedule.ready ↔
    ∃ element, Ready order.DependsOn order.elements before element ∧ order.elements.idxOf element = position
  settled : ∀ element ∈ before, ∀ dependency, order.DependsOn element dependency → dependency ∈ before

/-- Emitting a ready element releases what depends on it, and keeps the schedule up with what is emitted. -/
theorem Tracks.step (tracks : order.Tracks before schedule)
    (ready : Ready order.DependsOn order.elements before element) :
    ∃ next, (schedule.dependantsOf (order.elements.idxOf element)).foldlM Schedule.release
        (schedule.take (order.elements.idxOf element)) = .ok next ∧
      order.Tracks (before ++ [element]) next := by
  obtain ⟨waiting, distinct, waits, found⟩ := tracks.waiting element ready.listed
  have listed : ∀ other ∈ waiting, other ∈ order.elements := fun other member =>
    (mem_elements_of_dependency ((waits other).mp member)).1
  have fewer : ∀ other, order.outstanding before other =
      order.outstanding (before ++ [element]) other + if other ∈ waiting then 1 else 0 := fun other => by
    simp only [outstanding_concat ready.waiting, waits]
  have positive : ∀ other ∈ waiting, 0 < order.outstanding before other := fun other member => by
    simp [fewer, member]
  have counts : order.Counts (schedule.take (order.elements.idxOf element)) (order.outstanding before) :=
    ⟨tracks.counts.size, tracks.counts.each⟩
  obtain ⟨next, released, counts, kept, readyNext⟩ := releaseEach_ok counts distinct listed positive
  refine ⟨next, found ▸ released, ⟨counts.size, fun other known => ?_⟩, fun needed known => ?_, ?_, ?_⟩
  · rw [counts.each other known, fewer other]
    split <;> simp
  · obtain ⟨others, distinct, waits, found⟩ := tracks.waiting needed known
    refine ⟨others, distinct, waits, ?_⟩
    rw [Schedule.dependantsOf, kept]
    exact found
  · intro position
    rw [readyNext, Schedule.take, Std.ExtTreeSet.mem_erase, tracks.ready]
    simp only [ready_concat_iff ready tracks.settled, waits, or_and_right, exists_or]
    refine or_congr ?_ (by simp only [and_assoc])
    constructor
    · rintro ⟨different, other, readyOther, rfl⟩
      refine ⟨other, ⟨?_, readyOther⟩, rfl⟩
      rintro rfl
      exact different Std.ReflCmp.compare_self
    · rintro ⟨other, ⟨different, readyOther⟩, rfl⟩
      refine ⟨fun same => different ?_, other, readyOther, rfl⟩
      exact (List.idxOf_inj ready.listed).mp (Std.compare_eq_iff_eq.mp same)
  · intro other member dependency needed
    rcases List.mem_append.mp member with earlier | last
    · exact List.mem_append_left _ (tracks.settled other earlier dependency needed)
    · exact List.mem_append_left _ (ready.free dependency (List.mem_singleton.mp last ▸ needed))

/-- The loop emits one ready element after the other and stops when none is left. -/
theorem emitReady_ok (tracks : order.Tracks before schedule) :
    ∃ emitted, order.emitReady schedule = .ok emitted ∧
      Greedy order.DependsOn order.elements before emitted ∧
      ∀ element, ¬ Ready order.DependsOn order.elements (before ++ emitted) element := by
  -- `Tracks` is the invariant of the loop. The effort falls with every element that is taken.
  induction effort : schedule.effort using Nat.strongRecOn generalizing before schedule with
  | ind _ ih =>
    cases first : schedule.ready.min? with
    | none =>
      refine ⟨[], emitReady_of_none first, .nil, fun element ready => ?_⟩
      rw [List.append_nil] at ready
      have present := (tracks.ready _).mpr ⟨element, ready, rfl⟩
      rw [Std.ExtTreeSet.min?_eq_none_iff.mp first] at present
      exact Std.ExtTreeSet.not_mem_empty present
    | some position =>
      obtain ⟨member, least⟩ := Std.ExtTreeSet.min?_eq_some_iff_mem_and_forall.mp first
      obtain ⟨element, ready, rfl⟩ := (tracks.ready position).mp member
      obtain ⟨next, released, tracksNext⟩ := tracks.step ready
      have lower : next.effort < schedule.effort :=
        Nat.lt_of_le_of_lt (Schedule.effort_foldlM_release released) (Schedule.effort_take member)
      obtain ⟨emitted, rest, greedy, finished⟩ := ih next.effort (effort ▸ lower) tracksNext rfl
      refine ⟨element :: emitted, ?_, .cons ready (fun other readyOther => ?_) greedy, by simpa using finished⟩
      · rw [emitReady_of_first first (List.getElem?_idxOf ready.listed) released, rest]
        rfl
      · exact Nat.isLE_compare.mp (least _ ((tracks.ready _).mpr ⟨other, readyOther, rfl⟩))

theorem Schedule.mem_ready_start {position : Nat} :
    position ∈ schedule.start.ready ↔ schedule.start.pending[position]? = some 0 := by
  simp [Schedule.start, Std.ExtTreeSet.mem_ofList, List.mem_zipIdx_iff_getElem?]

/-- Once every dependency is linked, the elements that wait for none of them are ready. -/
theorem Links.tracks {linked : Schedule} (links : order.Links order.links linked) :
    order.Tracks [] linked.start := by
  have counts : order.Counts linked.start (order.outstanding []) :=
    ⟨links.counts.size, fun element listed => by
      simpa [outstanding, Schedule.start] using links.counts.each element listed⟩
  refine ⟨counts, fun needed listed => ?_, fun position => ?_, by simp⟩
  · refine ⟨(order.links.filter fun link => link.2 = needed).map Prod.fst, ?_, fun element => ?_, ?_⟩
    · refine (order.nodup_links.filter _).map_on fun one first other second same => ?_
      simp only [List.mem_filter, decide_eq_true_eq] at first second
      exact Prod.ext same (first.2.trans second.2.symm)
    · simp [mem_links]
    · rw [List.map_map]
      exact links.waiting needed listed
  · rw [Schedule.mem_ready_start]
    constructor
    · intro free
      have bound : position < order.elements.length :=
        counts.size ▸ (List.getElem?_eq_some_iff.mp free).1
      have stands := order.nodup_elements.idxOf_getElem position bound
      have listed := List.getElem_mem bound
      have counted := counts.each _ listed
      rw [stands] at counted
      have none := Option.some.inj (counted.symm.trans free)
      exact ⟨_, ⟨listed, List.not_mem_nil, outstanding_eq_zero_iff.mp none⟩, stands⟩
    · rintro ⟨element, ready, rfl⟩
      exact (counts.each element ready.listed).trans (congrArg some (outstanding_eq_zero_iff.mpr ready.free))

theorem schedule_ok (order : DependencyOrder α) :
    ∃ schedule, order.schedule = .ok schedule ∧ order.Tracks [] schedule := by
  have start : order.Links [] { pending := List.replicate order.size 0 } := by
    refine ⟨⟨by simp [size], fun element listed => ?_⟩, by simp [Schedule.dependantsOf]⟩
    simpa [size, List.getElem?_replicate] using List.idxOf_lt_length_of_mem listed
  have listed : ∀ link ∈ order.links, link.1 ∈ order.elements ∧ link.2 ∈ order.elements :=
    fun link member => mem_elements_of_dependency (mem_links.mp member)
  obtain ⟨linked, added, links⟩ := addLinks_ok start listed
  rw [List.nil_append] at links
  exact ⟨linked.start, by rw [schedule, added]; rfl, links.tracks⟩

end QueryOptimizer.DependencyOrder
