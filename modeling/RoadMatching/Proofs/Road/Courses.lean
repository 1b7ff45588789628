import RoadMatching.Proofs.Matching.Joints
import RoadMatching.Proofs.Road.Lines

/-!
The lines of routes.

The course of a route is the line of all its roads in a row. The route covers it from a length on the
first road to one on the last road, and the line of the route is cut out of the course there: it has
the vertices in between, and it is as long as the route.

A route that comes back to the road of its start is taken for one that never left it, so that its
line lacks all of the way around.

* `Line.join`, `Line.Meet`: lines in a row. `Line.Meet.metres_join`, `Line.Meet.lies_first`,
  `Line.Meet.lies_last`: lengths and positions along them.
* `Line.shows_one`, `Line.exists_shows_several`: the vertices shown of one line and of several.
* `RoadMap.IsDrawn`: lines of streets that meet at crossings and have the lengths of the streets.
* `Route.IsOn`: routes between positions on roads of a map. `Route.IsOn.length_eq`: how long they are.
* `Route.geometry_along`: **the line of a route** follows its course.
  `Route.geometry_along_streets`: a route over three streets. `Route.geometry_around`: a route around
  a block, of which the line lacks the way.
-/

namespace RoadMatching

variable {K : Type}

/-! ### Lines in a row -/

namespace Line

/-- Lines in a row as one line. The first vertex of a line that follows is left out, for it is the
last one of the line in front. -/
def join : List (Line K) → Line K
  | [] => []
  | line :: lines => line ++ lines.flatMap List.tail

/-- Each line ends where the next one starts. -/
def Meet (lines : List (Line K)) : Prop := lines.IsChain fun a b => a.getLast? = b.head?

variable {lines : List (Line K)} {line : Line K}

lemma join_singleton (line : Line K) : join [line] = line := List.append_nil line

lemma join_concat (hne : lines ≠ []) (line : Line K) :
    join (lines ++ [line]) = join lines ++ line.tail := by
  obtain ⟨first, rest, rfl⟩ := List.exists_cons_of_ne_nil hne
  rw [List.cons_append, join, join, List.flatMap_append, List.flatMap_singleton, List.append_assoc]

namespace Meet

lemma of_concat {prior : Line K} (h : Meet (lines ++ [prior] ++ [line])) :
    Meet (lines ++ [prior]) ∧ prior.getLast? = line.head? := by
  obtain ⟨hfront, -, hmeet⟩ := List.isChain_append.1 h
  exact ⟨hfront, hmeet prior (by rw [List.getLast?_concat]; rfl) line rfl⟩

/-- Lines in a row end with the last one of them. -/
lemma getLast?_join (h : Meet (lines ++ [line])) :
    (join (lines ++ [line])).getLast? = line.getLast? := by
  induction lines using List.reverseRecOn generalizing line with
  | nil => rw [List.nil_append, join_singleton]
  | append_singleton lines prior ih =>
    obtain ⟨hfront, hmeet⟩ := h.of_concat
    rw [join_concat (by simp), getLast?_append_tail ((ih hfront).trans hmeet)]

/-- The line that follows lines in a row starts where they end. -/
lemma joint (h : Meet (lines ++ [line])) (hne : lines ≠ []) :
    (join lines).getLast? = line.head? := by
  obtain ⟨front, prior, rfl⟩ := (List.eq_nil_or_concat' lines).resolve_left hne
  obtain ⟨hfront, hmeet⟩ := h.of_concat
  exact hfront.getLast?_join.trans hmeet

end Meet

variable [Field K] [LinearOrder K] [IsStrictOrderedRing K] [Geodesy K] {c d departure arrival : K}
  {p : Point K} {stones : List (K × Point K)}

omit [LinearOrder K] [IsStrictOrderedRing K] in
/-- Lines in a row are as long as all of them together. -/
lemma Meet.metres_join (h : Meet lines) : metres (join lines) = (lines.map metres).sum := by
  induction lines using List.reverseRecOn with
  | nil => exact metres_nil
  | append_singleton lines line ih =>
    rw [List.map_append, List.sum_append, List.map_singleton, List.sum_singleton]
    rcases eq_or_ne lines [] with rfl | hne
    · rw [List.nil_append, join_singleton, List.map_nil, List.sum_nil, zero_add]
    · rw [join_concat hne, metres_append (h.joint hne), ih (List.isChain_append.1 h).1]

lemma Meet.metres_le_join (hm : Geodesy.IsMetric K) (h : Meet (line :: lines)) :
    metres line ≤ metres (join (line :: lines)) := by
  rw [h.metres_join, List.map_cons, List.sum_cons]
  refine le_add_of_nonneg_right (List.sum_nonneg fun x hx => ?_)
  obtain ⟨other, -, rfl⟩ := List.mem_map.1 hx
  exact metres_nonneg hm other

/-- A position on the first line lies on the lines in a row. -/
lemma Meet.lies_first (hm : Geodesy.IsMetric K) (h : Meet (line :: lines)) (hp : Lies c line d p) :
    Lies c (join (line :: lines)) d p := by
  induction lines using List.reverseRecOn with
  | nil => rwa [join_singleton]
  | append_singleton lines last ih =>
    rw [← List.cons_append] at h ⊢
    rw [join_concat (List.cons_ne_nil line lines)]
    exact (ih (List.isChain_append.1 h).1).append hm (h.joint (List.cons_ne_nil line lines))

omit [IsStrictOrderedRing K] in
/-- So does a position on the last line, behind the length of the lines in front. -/
lemma Meet.lies_last (h : Meet (lines ++ [line])) (hp : Lies 0 line d p) :
    Lies 0 (join (lines ++ [line])) (metres (join lines) + d) p := by
  rcases eq_or_ne lines [] with rfl | hne
  · rwa [List.nil_append, join_singleton, join, metres_nil, zero_add]
  · have hshift := hp.shift (metres (join lines))
    rw [add_zero] at hshift
    rw [join_concat hne]
    refine Lies.prepend (h.joint hne) ?_
    rwa [zero_add]

/-! ### Vertices of lines in a row -/

omit [LinearOrder K] [IsStrictOrderedRing K] in
lemma map_snd_stonesFrom (c : K) (line : Line K) : (stonesFrom c line).map Prod.snd = line := by
  induction line generalizing c with
  | nil => rfl
  | cons v rest ih =>
    cases rest with
    | nil => rfl
    | cons w rest => exact congrArg (List.cons v) (ih (c + Geodesy.distance v w))

omit [LinearOrder K] [IsStrictOrderedRing K] in
lemma milestonesFrom_sublist (c : K) (line : Line K) :
    (Route.milestonesFrom c line.segments).Sublist (stonesFrom c line) := by
  cases line with
  | nil => exact List.Sublist.refl _
  | cons v rest => exact List.sublist_cons_self _ _

omit [LinearOrder K] [IsStrictOrderedRing K] in
/-- What leaves out the start of a line is told of the vertices behind it. -/
lemma filter_stonesFrom {keep : K × Point K → Bool} (hstart : ∀ v, keep (c, v) = false)
    (line : Line K) :
    (stonesFrom c line).filter keep = (Route.milestonesFrom c line.segments).filter keep := by
  cases line with
  | nil => rfl
  | cons v rest => exact List.filter_cons_of_neg (by simp [hstart])

omit [LinearOrder K] [IsStrictOrderedRing K] in
/-- The last vertex is at the end of the line. -/
lemma length_of_getLast?_milestonesFrom {stone : K × Point K}
    (h : stone ∈ (Route.milestonesFrom c line.segments).getLast?) : stone.1 = c + metres line := by
  cases line with
  | nil => cases h
  | cons v rest =>
    cases rest with
    | nil => cases h
    | cons w rest =>
      obtain ⟨p, hp⟩ := getLast?_stonesFrom (List.cons_ne_nil w rest) (c + Geodesy.distance v w)
      obtain rfl := Option.some.inj (hp.symm.trans h)
      rw [metres_cons_cons, add_assoc]

/-- The vertices with which a line goes on stand behind its end. -/
lemma exists_stonesFrom_append (hm : Geodesy.IsMetric K) (c : K) (front more : Line K) :
    ∃ behind, stonesFrom c (front ++ more) = stonesFrom c front ++ behind ∧
      behind.map Prod.snd = more ∧ ∀ stone ∈ behind, c + metres front ≤ stone.1 := by
  induction front generalizing c with
  | nil =>
    refine ⟨stonesFrom c more, rfl, map_snd_stonesFrom c more, fun stone hstone => ?_⟩
    rw [metres_nil, add_zero]
    exact (le_of_mem_stonesFrom hm hstone).1
  | cons v front ih =>
    cases front with
    | nil =>
      refine ⟨Route.milestonesFrom c (segments (v :: more)), rfl, ?_, fun stone hstone => ?_⟩
      · exact List.tail_eq_of_cons_eq (map_snd_stonesFrom c (v :: more))
      · rw [metres_singleton, add_zero]
        exact (le_of_mem_stonesFrom hm ((milestonesFrom_sublist c (v :: more)).subset hstone)).1
    | cons w front =>
      obtain ⟨behind, hstones, hpoints, hlow⟩ := ih (c + Geodesy.distance v w)
      refine ⟨behind, congrArg (List.cons (c, v)) hstones, hpoints, fun stone hstone => ?_⟩
      rw [metres_cons_cons, ← add_assoc]
      exact hlow stone hstone

omit [Field K] [IsStrictOrderedRing K] [Geodesy K] in
/-- In order, the vertices in front of a length are those less far. -/
lemma before_eq_filter (h : stones.Pairwise fun a b => a.1 ≤ b.1) :
    Route.before arrival stones = stones.filter fun stone => stone.1 < arrival := by
  induction stones with
  | nil => rfl
  | cons stone stones ih =>
    obtain ⟨hle, hrest⟩ := List.pairwise_cons.1 h
    rw [Route.before]
    by_cases hstone : stone.1 < arrival
    · rw [List.takeWhile_cons_of_pos (by simpa using hstone),
        List.filter_cons_of_pos (by simpa using hstone)]
      exact congrArg (List.cons stone) (ih hrest)
    · rw [List.takeWhile_cons_of_neg (by simpa using hstone),
        List.filter_cons_of_neg (by simpa using hstone), eq_comm, List.filter_eq_nil_iff]
      intro next hnext
      simpa using (not_lt.1 hstone).trans (hle next hnext)

lemma filter_dropLast {α : Type} {items : List α} {keep : α → Bool}
    (hlast : ∀ a ∈ items.getLast?, keep a = false) :
    items.dropLast.filter keep = items.filter keep := by
  rcases List.eq_nil_or_concat' items with rfl | ⟨front, last, rfl⟩
  · rfl
  · have hlast := hlast last (by rw [List.getLast?_concat]; rfl)
    rw [List.dropLast_concat, List.filter_append, List.filter_cons_of_neg (by simp [hlast]),
      List.filter_nil, List.append_nil]

/-- The last vertex of a line is not in front of a length of it. -/
lemma before_dropLast (hm : Geodesy.IsMetric K) (harrival : arrival ≤ metres line) :
    Route.before arrival (Route.milestonesFrom 0 line.segments).dropLast =
      (Route.milestonesFrom 0 line.segments).filter fun stone => stone.1 < arrival := by
  rw [before_eq_filter, filter_dropLast]
  · intro stone hstone
    have hend := length_of_getLast?_milestonesFrom hstone
    rw [zero_add] at hend
    simp [hend, harrival]
  · exact (pairwise_stonesFrom hm 0 line).sublist
      ((List.dropLast_sublist _).trans (milestonesFrom_sublist 0 line))

/-- Of one line, the vertices strictly between two lengths are shown. -/
lemma shows_one (hm : Geodesy.IsMetric K) (hdeparture : 0 ≤ departure)
    (harrival : arrival ≤ metres line) :
    Shows 0 line departure arrival (Route.before arrival
      (Route.beyond departure (Route.milestonesFrom 0 line.segments).dropLast)) := by
  have hsorted : (Route.milestonesFrom 0 line.segments).dropLast.Pairwise fun a b => a.1 ≤ b.1 :=
    (pairwise_stonesFrom hm 0 line).sublist
      ((List.dropLast_sublist _).trans (milestonesFrom_sublist 0 line))
  have hshown : Route.before arrival
      (Route.beyond departure (Route.milestonesFrom 0 line.segments).dropLast) =
        (stonesFrom 0 line).filter fun s => departure < s.1 ∧ s.1 < arrival := by
    rw [Route.beyond, before_eq_filter (hsorted.sublist List.filter_sublist), List.filter_comm,
      ← before_eq_filter hsorted, before_dropLast hm harrival, List.filter_filter,
      filter_stonesFrom fun v => by simp [hdeparture.not_gt]]
    simp only [← decide_not, not_le, Bool.decide_and]
  rw [hshown]
  refine ⟨List.Sublist.refl _, List.monotone_filter_right _ fun s hs => ?_⟩
  simp only [decide_eq_true_eq] at hs ⊢
  exact ⟨hs.1.le, hs.2.le⟩

/-- The vertices of lines in a row are those of the first line, those of the lines between, and behind
them those of the last line. -/
lemma exists_stonesFrom_join (hm : Geodesy.IsMetric K) {first last : Line K}
    {inner : List (Line K)} (h : Meet (first :: inner ++ [last])) :
    ∃ between : List (K × Point K), between.map Prod.snd = inner.flatMap List.tail ∧
      (∀ s ∈ between, metres first ≤ s.1 ∧ s.1 ≤ metres (join (first :: inner))) ∧
      stonesFrom 0 (join (first :: inner ++ [last])) = stonesFrom 0 first ++ between ++
        (Route.milestonesFrom 0 last.segments).map fun s =>
          (metres (join (first :: inner)) + s.1, s.2) := by
  have hne : first :: inner ≠ [] := List.cons_ne_nil first inner
  obtain ⟨between, hbetween, hpoints, hbehind⟩ :=
    exists_stonesFrom_append hm 0 first (inner.flatMap List.tail)
  change stonesFrom 0 (join (first :: inner)) = _ at hbetween
  rw [zero_add] at hbehind
  refine ⟨between, hpoints, fun s hs => ⟨hbehind s hs, ?_⟩, ?_⟩
  · have hmem : s ∈ stonesFrom 0 (join (first :: inner)) :=
      hbetween ▸ List.mem_append_right _ hs
    simpa using (le_of_mem_stonesFrom hm hmem).2
  · rw [join_concat hne, stonesFrom_append (h.joint hne), hbetween, zero_add, ← milestonesFrom_add,
      add_zero]

/-- Of several lines in a row, those are shown that are behind a length of the first line, those of
the lines between, and those of the last line in front of another length. -/
lemma exists_shows_several (hm : Geodesy.IsMetric K) {first last : Line K} {inner : List (Line K)}
    (h : Meet (first :: inner ++ [last])) (hdeparture : 0 ≤ departure)
    (hdeparture' : departure ≤ metres first) (harrival : 0 ≤ arrival)
    (harrival' : arrival ≤ metres last) :
    ∃ shown, shown.map Prod.snd =
        (Route.beyond departure (Route.milestonesFrom 0 first.segments)).map Prod.snd ++
          inner.flatMap List.tail ++
          (Route.before arrival (Route.milestonesFrom 0 last.segments).dropLast).map Prod.snd ∧
      Shows 0 (join (first :: inner ++ [last])) departure (metres (join (first :: inner)) + arrival)
        shown := by
  obtain ⟨between, hpoints, hbetween, hstones⟩ := exists_stonesFrom_join hm h
  have hinner := Meet.metres_le_join hm (List.isChain_append.1 h).1
  have hfirst := milestonesFrom_sublist 0 first
  set offset := metres (join (first :: inner))
  set move : K × Point K → K × Point K := fun s => (offset + s.1, s.2)
  rw [before_dropLast hm harrival']
  refine ⟨Route.beyond departure (Route.milestonesFrom 0 first.segments) ++ between ++
    ((Route.milestonesFrom 0 last.segments).filter fun s => s.1 < arrival).map move, ?_, ?_, ?_⟩
  · rw [List.map_append, List.map_append, hpoints, List.map_map]
    rfl
  · rw [hstones, List.filter_append, List.filter_append, List.filter_map]
    refine (List.Sublist.append ?_ List.filter_sublist).append (List.Sublist.map _ ?_)
    · rw [filter_stonesFrom fun v => by simp [hdeparture.not_gt], Route.beyond]
      refine List.monotone_filter_right _ fun s hs => ?_
      simp only [decide_eq_true_eq] at hs
      simpa using hs.1
    · refine List.monotone_filter_right _ fun s hs => ?_
      simp only [Function.comp_apply, decide_eq_true_eq] at hs
      simpa [move] using hs.2
  · refine List.sublist_filter_iff.2 ⟨_, ?_, (List.filter_eq_self.2 ?_).symm⟩
    · rw [hstones]
      exact ((List.filter_sublist.trans hfirst).append (List.Sublist.refl _)).append
        (List.filter_sublist.map _)
    -- what is shown of the first line, of the lines between and of the last line, in turn
    simp only [List.forall_mem_append, decide_eq_true_eq]
    refine ⟨⟨fun s hs => ?_, fun s hs => ?_⟩, fun s hs => ?_⟩
    · obtain ⟨hmem, hbeyond⟩ := List.mem_filter.1 hs
      have hlow : departure < s.1 := by simpa using hbeyond
      have hhigh := (le_of_mem_stonesFrom hm (hfirst.subset hmem)).2
      exact ⟨hlow.le, by linarith⟩
    · obtain ⟨hlow, hhigh⟩ := hbetween s hs
      exact ⟨hdeparture'.trans hlow, hhigh.trans (le_add_of_nonneg_right harrival)⟩
    · obtain ⟨stone, hstone, rfl⟩ := List.mem_map.1 hs
      obtain ⟨hmem, hbefore⟩ := List.mem_filter.1 hstone
      have hlow := (le_of_mem_stonesFrom hm ((milestonesFrom_sublist 0 last).subset hmem)).1
      have hhigh : stone.1 < arrival := by simpa using hbefore
      exact ⟨(hdeparture'.trans hinner).trans (le_add_of_nonneg_right hlow),
        add_le_add le_rfl hhigh.le⟩

end Line

variable [Field K] [LinearOrder K] [IsStrictOrderedRing K] [Geodesy K] {map : RoadMap K}

/-! ### Maps that are drawn -/

/-- The lines of streets have the lengths of the streets, and where one road may follow another one
their lines meet. -/
structure RoadMap.IsDrawn (map : RoadMap K) : Prop where
  length : ∀ id r, map.road? id = some r → r.street.length = r.street.geometry.metres
  meets : ∀ a b r s, map.road? a = some r → map.road? b = some s → r.target = s.source →
    r.geometry.getLast? = s.geometry.head?

/-- The length of its road in front of a position, zero on an unknown road. -/
def RoadMap.covered (map : RoadMap K) (p : RoadPoint K) : K :=
  (map.road? p.road).elim 0 Road.length * p.fraction

namespace RoadMap.IsDrawn

omit [LinearOrder K] [IsStrictOrderedRing K] in
/-- A map is drawn if all roads of its network are. -/
lemma of_edges
    (hlength : ∀ e ∈ map.graph.edges, e.label.street.length = e.label.street.geometry.metres)
    (hmeets : ∀ e ∈ map.graph.edges, ∀ f ∈ map.graph.edges, e.label.target = f.label.source →
      e.label.geometry.getLast? = f.label.geometry.head?) : map.IsDrawn := by
  refine ⟨fun id r hr => ?_, fun a b r s hr hs hcrossing => ?_⟩
  · obtain ⟨e, he, rfl⟩ := RoadMap.exists_edge_of_road? hr
    exact hlength e he
  · obtain ⟨e, he, rfl⟩ := RoadMap.exists_edge_of_road? hr
    obtain ⟨f, hf, rfl⟩ := RoadMap.exists_edge_of_road? hs
    exact hmeets e he f hf hcrossing

omit [IsStrictOrderedRing K] in
/-- A road is as long as its line, in both directions. -/
lemma length_eq (h : map.IsDrawn) (hm : Geodesy.IsMetric K) {id : Int} {r : Road K}
    (hr : map.road? id = some r) : r.length = r.geometry.metres := by
  rw [Road.length, h.length id r hr, Road.geometry]
  cases r.heading with
  | forward => rfl
  | backward => exact (Line.metres_reverse hm _).symm

omit [IsStrictOrderedRing K] in
/-- The lines of linked roads meet. -/
lemma meet (h : map.IsDrawn) (hmap : map.Made) {ids : List Int}
    (hchain : ids.IsChain fun a b => map.graph.isSuccessor a b = true) :
    Line.Meet ((ids.filterMap map.road?).map Road.geometry) := by
  induction ids with
  | nil => exact List.isChain_nil
  | cons a rest ih =>
    cases rest with
    | nil =>
      rw [List.filterMap_cons, List.filterMap_nil]
      cases map.road? a with
      | none => exact List.isChain_nil
      | some r => exact List.isChain_singleton _
    | cons b rest =>
      obtain ⟨hnext, hrest⟩ := List.isChain_cons_cons.1 hchain
      obtain ⟨r, s, hr, hs, hcrossing⟩ := hmap.target_eq_source hnext
      have ih := ih hrest
      rw [List.filterMap_cons_some hs, List.map_cons] at ih
      rw [List.filterMap_cons_some hr, List.filterMap_cons_some hs, List.map_cons, List.map_cons]
      exact List.isChain_cons_cons.2 ⟨h.meets a b r s hr hs hcrossing, ih⟩

omit [IsStrictOrderedRing K] in
/-- Roads are as long as their lines together. -/
lemma sum_length (h : map.IsDrawn) (hm : Geodesy.IsMetric K) (ids : List Int) :
    ((ids.filterMap map.road?).map Road.length).sum =
      (((ids.filterMap map.road?).map Road.geometry).map Line.metres).sum := by
  rw [List.map_map]
  refine congrArg List.sum (List.map_congr_left fun r hr => ?_)
  obtain ⟨id, -, hid⟩ := List.mem_filterMap.1 hr
  exact h.length_eq hm hid

/-- A position of the map lies on the line of its road. -/
lemma lies [Analysis K] (h : map.IsDrawn) (hm : Geodesy.IsMetric K) {p : RoadPoint K}
    (hp : map.Has p) (hfraction : 0 ≤ p.fraction ∧ p.fraction ≤ 1) {r : Road K}
    (hr : map.road? p.road = some r) :
    0 ≤ map.covered p ∧ map.covered p ≤ r.geometry.metres ∧
      Line.Lies 0 r.geometry (map.covered p) p.position := by
  have hmetres := Line.metres_nonneg hm r.geometry
  rw [covered, hr, Option.elim_some, h.length_eq hm hr, hp.position_eq hr]
  exact ⟨mul_nonneg hmetres hfraction.1, mul_le_of_le_one_right hmetres hfraction.2,
    Line.lies_interpolate hm _ hfraction.1 hfraction.2⟩

end RoadMap.IsDrawn

/-! ### Routes on a map -/

namespace Route

/-- The lines of the roads of a route in a row. -/
def course (r : Route K) (map : RoadMap K) : Line K :=
  Line.join ((r.roads.filterMap map.road?).map Road.geometry)

/-- The length of the course in front of the source. -/
def departure (r : Route K) (map : RoadMap K) : K := map.covered r.source

/-- The length of the course in front of the target. -/
def arrival (r : Route K) (map : RoadMap K) : K :=
  ((r.roads.dropLast.filterMap map.road?).map Road.length).sum + map.covered r.target

variable {r : Route K}

omit [IsStrictOrderedRing K] in
/-- What is shown of a road with which a route both starts and ends. -/
lemma vertices_of_same {first : Road K} (hhead : r.roads.head? = some r.source.road)
    (hlast : r.roads.getLast? = some r.target.road) (hreturn : r.source.road = r.target.road)
    (hfirst : map.road? r.source.road = some first) :
    r.vertices map = (before (map.covered r.target)
      (beyond (map.covered r.source) (milestones first).dropLast)).map Prod.snd := by
  rw [vertices, hhead, hlast, RoadMap.covered, RoadMap.covered, ← hreturn]
  simp only [Option.bind_some, hfirst, if_true, Option.elim_some]

omit [IsStrictOrderedRing K] in
/-- What is shown of several roads if the first one is not the last one. -/
lemma vertices_of_ne {first last : Road K} {inner : List Int}
    (hroads : r.roads = r.source.road :: inner ++ [r.target.road])
    (hfirst : map.road? r.source.road = some first) (hlast : map.road? r.target.road = some last)
    (hne : first.id ≠ last.id) :
    r.vertices map = (beyond (map.covered r.source) (milestones first)).map Prod.snd ++
      ((inner.filterMap map.road?).map Road.geometry).flatMap List.tail ++
      (before (map.covered r.target) (milestones last).dropLast).map Prod.snd := by
  have hlast' : r.roads.getLast? = some r.target.road := by rw [hroads, List.getLast?_concat]
  rw [vertices, hlast', hroads, RoadMap.covered, RoadMap.covered, hfirst, hlast, List.flatMap_map]
  simp only [List.cons_append, List.head?_cons, List.tail_cons, List.dropLast_concat,
    Option.bind_some, Option.elim_some, hfirst, hlast, if_neg hne]

/-- The line of a route shows vertices of its course, from the position of the source to that of the
target. -/
structure Follows (r : Route K) (map : RoadMap K) (shown : List (K × Point K)) : Prop where
  forward : r.departure map ≤ r.arrival map
  vertices : r.vertices map = shown.map Prod.snd
  shows : Line.Shows 0 (r.course map) (r.departure map) (r.arrival map) shown
  source : Line.Lies 0 (r.course map) (r.departure map) r.source.position
  target : Line.Lies 0 (r.course map) (r.arrival map) r.target.position

namespace Follows

variable {shown : List (K × Point K)} (h : r.Follows map shown)
include h

/-- A line that follows the course is as long as the course is between the ends. -/
lemma metres_geometry (hm : Geodesy.IsMetric K) :
    (r.geometry map).metres = r.arrival map - r.departure map := by
  have hcut := Line.milestonesFrom_cut hm h.source h.target h.forward h.shows
  rw [← h.vertices] at hcut
  have hlast : (r.arrival map - r.departure map, r.target.position) ∈
      (milestonesFrom 0 (r.geometry map).segments).getLast? := by
    rw [geometry, hcut, List.getLast?_concat]
    rfl
  have hend := Line.length_of_getLast?_milestonesFrom hlast
  rw [zero_add] at hend
  exact hend.symm

/-- A vertex at an end of the route is where that end is. -/
lemma coincides (hm : Geodesy.IsMetric K) {stone : K × Point K} (hstone : stone ∈ shown) :
    r.departure map < stone.1 ∧ stone.1 < r.arrival map ∨
      Geodesy.distance r.source.position stone.2 = 0 ∨
      Geodesy.distance stone.2 r.target.position = 0 := by
  obtain ⟨hmem, hlow, hhigh⟩ := h.shows.of_mem hstone
  have hlies := Line.lies_of_mem_stonesFrom hm hmem
  rcases hlow.eq_or_lt with heq | hlow
  · exact .inr (.inl (h.source.distance_eq_zero hm (heq ▸ hlies)))
  rcases hhigh.eq_or_lt with heq | hhigh
  · exact .inr (.inr (hlies.distance_eq_zero hm (heq ▸ h.target)))
  · exact .inl ⟨hlow, hhigh⟩

end Follows

variable [Analysis K]

/-- A route between positions on roads of a map, which has been measured there. -/
structure IsOn (r : Route K) (map : RoadMap K) : Prop where
  valid : r.path.isValid map.graph = true
  source : map.Has r.source
  target : map.Has r.target
  start : 0 ≤ r.source.fraction ∧ r.source.fraction ≤ 1
  stop : 0 ≤ r.target.fraction ∧ r.target.fraction ≤ 1
  length : r.length = r.cost map Road.distance

omit [IsStrictOrderedRing K] in
/-- A route that can be made is on the map, if its ends are. -/
lemma isOn_of_of? [BEq K] {source target : RoadPoint K} {roads : List Int}
    (h : of? map source target roads = .ok r) (hsource : map.Has source) (htarget : map.Has target)
    (hstart : 0 ≤ source.fraction ∧ source.fraction ≤ 1)
    (hstop : 0 ≤ target.fraction ∧ target.fraction ≤ 1) : r.IsOn map := by
  obtain ⟨hvalid, rfl⟩ := of?_eq_ok_iff.1 h
  exact ⟨hvalid, hsource, htarget, hstart, hstop, rfl⟩

namespace IsOn

variable (h : r.IsOn map)
include h

omit [IsStrictOrderedRing K] in
/-- The roads of a route start with that of its source and end with that of its target. -/
lemma ends : r.roads.head? = some r.source.road ∧ r.roads.getLast? = some r.target.road := by
  obtain ⟨hhead, hlast, -, -⟩ := Path.isValid_iff.1 h.valid
  exact ⟨hhead, hlast⟩

/-- The length of a route is that of its course from the source to the target. -/
lemma length_eq : r.length = r.arrival map - r.departure map := by
  obtain ⟨hhead, hlast⟩ := h.ends
  obtain ⟨first, hfirst, -⟩ := h.source.exists_road
  obtain ⟨last, hlast', -⟩ := h.target.exists_road
  obtain ⟨rest, hrest⟩ := List.head?_eq_some_iff.1 hhead
  obtain ⟨front, hfront⟩ := List.getLast?_eq_some_iff.1 hlast
  -- all roads are the first one and the others, and the last one and the others
  have hsum : first.length + ((rest.filterMap map.road?).map Road.length).sum =
      ((front.filterMap map.road?).map Road.length).sum + last.length := by
    have hroads := congrArg (fun ids => ((ids.filterMap map.road?).map Road.length).sum)
      (hrest.symm.trans hfront)
    simpa [List.filterMap_cons_some hfirst, List.filterMap_cons_some hlast'] using hroads
  have hcost : r.length = first.length * (1 - r.source.fraction) +
      ((rest.filterMap map.road?).map Road.length).sum -
        last.length * (1 - r.target.fraction) := by
    rw [h.length]
    show Path.remainder map.graph Road.distance ⟨r.source.road, r.source.fraction⟩ +
      Path.fullCost map.graph Road.distance r.roads.tail -
        Path.remainder map.graph Road.distance ⟨r.target.road, r.target.fraction⟩ = _
    rw [RoadMap.remainder_eq hfirst, RoadMap.remainder_eq hlast', RoadMap.fullCost_eq, hrest]
    rfl
  rw [hcost, arrival, departure, RoadMap.covered, RoadMap.covered, hfirst, hlast', hfront,
    List.dropLast_concat, Option.elim_some, Option.elim_some]
  linarith

/-- A route on one road follows it. -/
lemma exists_follows_one (hm : Geodesy.IsMetric K) (hdrawn : map.IsDrawn)
    (hone : r.roads.length = 1) : ∃ shown, r.Follows map shown := by
  obtain ⟨hhead, hlast⟩ := h.ends
  obtain ⟨-, -, hforward, -⟩ := Path.isValid_iff.1 h.valid
  have hforward : r.source.fraction ≤ r.target.fraction := not_lt.1 (hforward hone)
  obtain ⟨first, hfirst, -⟩ := h.source.exists_road
  obtain ⟨a, hroads⟩ := List.length_eq_one_iff.1 hone
  obtain rfl : a = r.source.road := Option.some.inj (by rwa [hroads] at hhead)
  have hreturn : r.source.road = r.target.road := Option.some.inj (by rwa [hroads] at hlast)
  have hfirst' : map.road? r.target.road = some first := hreturn ▸ hfirst
  have hcourse : r.course map = first.geometry := by
    rw [course, hroads, List.filterMap_cons_some hfirst]
    exact Line.join_singleton _
  have harrival : r.arrival map = map.covered r.target := by
    rw [arrival, hroads]
    exact zero_add _
  obtain ⟨hdeparture, -, hsource⟩ := hdrawn.lies hm h.source h.start hfirst
  obtain ⟨-, hend, htarget⟩ := hdrawn.lies hm h.target h.stop hfirst'
  refine ⟨_, ?_, vertices_of_same hhead hlast hreturn hfirst, ?_, ?_, ?_⟩
  · rw [harrival, departure, RoadMap.covered, RoadMap.covered, hfirst, hfirst', Option.elim_some,
      hdrawn.length_eq hm hfirst]
    exact mul_le_mul_of_nonneg_left hforward (Line.metres_nonneg hm _)
  · rw [hcourse, harrival]
    exact Line.shows_one hm hdeparture hend
  · rwa [hcourse]
  · rwa [hcourse, harrival]

omit [IsStrictOrderedRing K] in
/-- The roads of a route that ends on another road than it starts. -/
lemma exists_inner (hends : r.source.road ≠ r.target.road) :
    ∃ inner, r.roads = r.source.road :: inner ++ [r.target.road] := by
  obtain ⟨hhead, hlast⟩ := h.ends
  obtain ⟨rest, hrest⟩ := List.head?_eq_some_iff.1 hhead
  rcases List.eq_nil_or_concat' rest with rfl | ⟨inner, b, rfl⟩
  · rw [hrest, List.getLast?_singleton] at hlast
    exact absurd (Option.some.inj hlast) hends
  · rw [hrest, ← List.cons_append, List.getLast?_concat] at hlast
    exact ⟨inner, by rw [hrest, Option.some.inj hlast, List.cons_append]⟩

/-- A route on several roads follows them, unless it ends on the road where it starts. -/
lemma exists_follows_several (hm : Geodesy.IsMetric K) (hmap : map.Made) (hdrawn : map.IsDrawn)
    (hends : r.source.road ≠ r.target.road) : ∃ shown, r.Follows map shown := by
  obtain ⟨-, -, -, hchain⟩ := Path.isValid_iff.1 h.valid
  obtain ⟨inner, hroads⟩ := h.exists_inner hends
  obtain ⟨first, hfirst, hid⟩ := h.source.exists_road
  obtain ⟨last, hlast, hid'⟩ := h.target.exists_road
  have hne : first.id ≠ last.id := hid ▸ hid' ▸ hends
  set lines := (inner.filterMap map.road?).map Road.geometry
  have hfront : ((r.source.road :: inner).filterMap map.road?).map Road.geometry =
      first.geometry :: lines := by
    rw [List.filterMap_cons_some hfirst, List.map_cons]
  have hlines : (r.roads.filterMap map.road?).map Road.geometry =
      first.geometry :: lines ++ [last.geometry] := by
    rw [hroads, List.filterMap_append, List.map_append, hfront, List.filterMap_cons_some hlast]
    rfl
  have hcourse : r.course map = Line.join (first.geometry :: lines ++ [last.geometry]) :=
    congrArg Line.join hlines
  have hmeet : Line.Meet (first.geometry :: lines ++ [last.geometry]) :=
    hlines ▸ hdrawn.meet hmap hchain
  have hmeet' : Line.Meet (first.geometry :: lines) := (List.isChain_append.1 hmeet).1
  have harrival : r.arrival map =
      Line.metres (Line.join (first.geometry :: lines)) + map.covered r.target := by
    rw [arrival, hroads, List.dropLast_concat, hdrawn.sum_length hm, hfront, hmeet'.metres_join]
  obtain ⟨hdeparture, hdeparture', hsource⟩ := hdrawn.lies hm h.source h.start hfirst
  obtain ⟨hstop, hstop', htarget⟩ := hdrawn.lies hm h.target h.stop hlast
  obtain ⟨shown, hpoints, hshows⟩ :=
    Line.exists_shows_several hm hmeet hdeparture hdeparture' hstop hstop'
  refine ⟨shown, ?_, (vertices_of_ne hroads hfirst hlast hne).trans hpoints.symm, ?_, ?_, ?_⟩
  · rw [harrival]
    exact (hdeparture'.trans (hmeet'.metres_le_join hm)).trans (le_add_of_nonneg_right hstop)
  · rw [hcourse, harrival]
    exact hshows
  · rw [hcourse]
    exact hmeet.lies_first hm hsource
  · rw [hcourse, harrival]
    exact hmeet.lies_last htarget

end IsOn

/-- **The line of a route**: on a map whose streets are drawn, take a route between positions on its
roads. Unless it is a route on several roads that comes back to the road of its start, its line leads
from the position of the source to that of the target, and in between it has the vertices of the
course of its roads, in order: all that are strictly between the ends, and none besides but such as
coincide with the source or the target. It is as long as the route. A route that comes back has the
line that it would have without the other roads. -/
theorem geometry_along (hm : Geodesy.IsMetric K) (hmap : map.Made) (hdrawn : map.IsDrawn)
    (h : r.IsOn map) :
    (r.roads.length = 1 ∨ r.source.road ≠ r.target.road → ∃ shown : List (K × Point K),
      r.geometry map = r.source.position :: shown.map Prod.snd ++ [r.target.position] ∧
        Line.Shows 0 (r.course map) (r.departure map) (r.arrival map) shown ∧
        (∀ stone ∈ shown, r.departure map < stone.1 ∧ stone.1 < r.arrival map ∨
          Geodesy.distance r.source.position stone.2 = 0 ∨
          Geodesy.distance stone.2 r.target.position = 0) ∧
        (r.geometry map).metres = r.length) ∧
      (r.source.road = r.target.road →
        r.geometry map = ({ r with roads := [r.source.road] } : Route K).geometry map) := by
  refine ⟨fun hone => ?_, fun hreturn => ?_⟩
  · have hfollows : ∃ shown, r.Follows map shown :=
      hone.elim (h.exists_follows_one hm hdrawn) (h.exists_follows_several hm hmap hdrawn)
    obtain ⟨shown, hshown⟩ := hfollows
    refine ⟨shown, by rw [geometry, hshown.vertices], hshown.shows,
      fun stone hstone => hshown.coincides hm hstone, ?_⟩
    rw [hshown.metres_geometry hm, h.length_eq]
  · obtain ⟨hhead, hlast⟩ := h.ends
    obtain ⟨first, hfirst, -⟩ := h.source.exists_road
    have halone := vertices_of_same (r := { r with roads := [r.source.road] }) rfl
      (congrArg some hreturn) hreturn hfirst
    rw [geometry, geometry, vertices_of_same hhead hlast hreturn hfirst, halone]

/-! ### Two scenes -/

namespace Streets

open Plane

/-- A one-way street along a line. -/
def street (id source target : Int) (line : Line ℚ) : Street ℚ :=
  { Street.ofLine id source target line with oneway := true }

/-- The street on which routes start. -/
def start : Street ℚ := street 1 0 1 [⟨0, 0⟩, ⟨10, 0⟩, ⟨30, 0⟩]

/-- The last one of three streets. -/
def stop : Street ℚ := street 3 2 3 [⟨30, 20⟩, ⟨40, 20⟩, ⟨60, 20⟩]

/-- Three streets, with a bend at each of two crossings. -/
def bends : RoadMap ℚ :=
  (RoadMap.ofList [start, street 2 1 2 [⟨30, 0⟩, ⟨30, 20⟩], stop]).construct

/-- The route from the middle of the first street to two thirds of the last one. -/
def across : Route ℚ :=
  ⟨.on ⟨start, .forward⟩ (1 / 2), .on ⟨stop, .forward⟩ (2 / 3), [2, 4, 6], 55, 99 / 25⟩

/-- Two streets around a block. -/
def block : RoadMap ℚ :=
  (RoadMap.ofList [start, street 2 1 0 [⟨30, 0⟩, ⟨30, 10⟩, ⟨0, 10⟩, ⟨0, 0⟩]]).construct

/-- The route around the block, from the middle of the first street to two thirds of it. -/
def around : Route ℚ :=
  ⟨.on ⟨start, .forward⟩ (1 / 2), .on ⟨start, .forward⟩ (2 / 3), [2, 4, 2], 85, 153 / 25⟩

lemma made_bends : bends.Made := .construct (RoadMap.made_ofList _)

lemma made_block : block.Made := .construct (RoadMap.made_ofList _)

lemma isDrawn_bends : bends.IsDrawn := .of_edges (by decide +kernel) (by decide +kernel)

lemma isDrawn_block : block.IsDrawn := .of_edges (by decide +kernel) (by decide +kernel)

lemma road?_bends : bends.road? 2 = some ⟨start, .forward⟩ ∧ bends.road? 6 = some ⟨stop, .forward⟩ :=
  ⟨by with_unfolding_all rfl, by with_unfolding_all rfl⟩

lemma road?_block : block.road? 2 = some ⟨start, .forward⟩ := by with_unfolding_all rfl

lemma isOn_across : across.IsOn bends where
  valid := by decide +kernel
  source := made_bends.has_on road?_bends.1 _
  target := made_bends.has_on road?_bends.2 _
  start := by decide +kernel
  stop := by decide +kernel
  length := by decide +kernel

lemma isOn_around : around.IsOn block where
  valid := by decide +kernel
  source := made_block.has_on road?_block _
  target := made_block.has_on road?_block _
  start := by decide +kernel
  stop := by decide +kernel
  length := by decide +kernel

end Streets

open Streets Plane in
/-- Over three streets, the line of the route has both crossings and the one vertex of the streets
that is between its ends, and is as long as the route. -/
theorem geometry_along_streets :
    Geodesy.IsMetric ℚ ∧ bends.Made ∧ bends.IsDrawn ∧ across.IsOn bends ∧
      across.source.road ≠ across.target.road ∧
      across.geometry bends = [⟨15, 0⟩, ⟨30, 0⟩, ⟨30, 20⟩, ⟨40, 20⟩, ⟨50, 20⟩] ∧
      (across.geometry bends).metres = 55 := by
  have hends : across.source.road ≠ across.target.road := by decide +kernel
  obtain ⟨-, -, -, -, hlength⟩ :=
    (geometry_along isMetric made_bends isDrawn_bends isOn_across).1 (.inr hends)
  exact ⟨isMetric, made_bends, isDrawn_bends, isOn_across, hends, by decide +kernel, hlength⟩

open Streets Plane in
/-- Around the block, the line of the route has nothing of the way: it leads straight along the
street on which the route starts and ends, and is shorter than the route. -/
theorem geometry_around :
    block.Made ∧ block.isConstructed = true ∧ block.IsDrawn ∧ around.IsOn block ∧
      around.geometry block = [⟨15, 0⟩, ⟨20, 0⟩] ∧
      (around.geometry block).metres < around.length :=
  ⟨made_block, by decide +kernel, isDrawn_block, isOn_around, by decide +kernel,
    by decide +kernel⟩

end Route

end RoadMatching
