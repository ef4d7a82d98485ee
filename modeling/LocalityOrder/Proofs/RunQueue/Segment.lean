import LocalityOrder.Chain
import LocalityOrder.Proofs.Checked
import Mathlib.Data.List.Nodup

/-!
# Segments of a chain

A list is a segment of a chain when its elements are linked to each other in the order of the list,
and its two ends to what lies outside.  All changes of a chain are made of `Chain.join`, which turns
two segments into one (`exists_join`), so the other changes need no look at single links.
-/

namespace LocalityOrder

namespace Chain

/-- The elements of a list are linked in its order, the first one after `before` and the last one
in front of `after`. -/
def Segment (c : Chain) (before : Option Vertex) : List Vertex → (after : Option Vertex) → Prop
  | [], _ => True
  | v :: rest, after =>
      c.links[v]? = some (some ⟨before, rest.head?.or after⟩) ∧ Segment c (some v) rest after

variable {c c' : Chain} {before after : Option Vertex} {l l₁ l₂ : List Vertex} {v : Vertex}

theorem segment_nil : c.Segment before [] after := trivial

theorem segment_cons :
    c.Segment before (v :: l) after ↔
      c.links[v]? = some (some ⟨before, l.head?.or after⟩) ∧ c.Segment (some v) l after :=
  Iff.rfl

/-- Two lists make one segment when each of them is one and they meet. -/
theorem segment_append :
    c.Segment before (l₁ ++ l₂) after ↔
      c.Segment before l₁ (l₂.head?.or after) ∧ c.Segment (l₁.getLast?.or before) l₂ after := by
  induction l₁ generalizing before with
  | nil => simp [segment_nil]
  | cons u rest ih =>
    have hhead : (rest ++ l₂).head?.or after = rest.head?.or (l₂.head?.or after) := by
      cases rest <;> simp
    have hlast : (u :: rest).getLast?.or before = rest.getLast?.or (some u) := by
      cases rest <;> simp [List.getLast?_cons]
    rw [List.cons_append, segment_cons, segment_cons, ih, hhead, hlast, and_assoc]

-- A segment depends on the links of its own elements only.
theorem Segment.congr (h : c.Segment before l after)
    (heq : ∀ w ∈ l, c'.links[w]? = c.links[w]?) : c'.Segment before l after := by
  induction l generalizing before with
  | nil => exact segment_nil
  | cons u rest ih =>
    rw [segment_cons] at h ⊢
    refine ⟨?_, ih h.2 fun w hw => heq w (List.mem_cons_of_mem _ hw)⟩
    rw [heq u List.mem_cons_self]
    exact h.1

-- The link of an element in the middle of a segment.
theorem Segment.link_eq (h : c.Segment none (l₁ ++ v :: l₂) none) :
    c.links[v]? = some (some ⟨l₁.getLast?, l₂.head?⟩) := by
  have hv := (segment_cons.mp (segment_append.mp h).2).1
  simpa only [Option.or_none] using hv

/-! ## Single links -/

theorem link_eq_ok_iff {link : Link} :
    c.link v = .ok link ↔ c.links[v]? = some (some link) := by
  unfold Chain.link link?
  rw [bind_eq_ok_iff]
  constructor
  · rintro ⟨entry, hentry, h⟩
    rw [Table.get_eq_ok_iff] at hentry
    cases entry with
    | none => simp at h
    | some link' =>
      obtain rfl : link' = link := by simpa using h
      exact hentry
  · intro h
    exact ⟨some link, Table.get_eq_ok_iff.mpr h, by simp⟩

-- A walk from the start of a chain to its end reads off its elements.
theorem Segment.walk_eq (h : c.Segment before l none) : c.walk l.length l.head? = .ok l := by
  induction l generalizing before with
  | nil => rfl
  | cons u rest ih =>
    obtain ⟨hlink, hrest⟩ := segment_cons.mp h
    rw [Option.or_none] at hlink
    rw [List.length_cons, List.head?_cons, walk, link_eq_ok_iff.mpr hlink, ok_bind, ih hrest,
      ok_bind, pure_eq_ok]

-- Writing a link where there is one.
theorem exists_put_link {link : Link} (h : c.links[v]? = some (some link)) (link' : Link) :
    ∃ t, c.links.put v (some link') = .ok t ∧ t[v]? = some (some link') ∧
      ∀ w, w ≠ v → t[w]? = c.links[w]? := by
  have hlt : v < c.links.size := (Array.getElem?_eq_some_iff.mp h).1
  obtain ⟨t, hput, -, hget⟩ := Table.exists_put hlt (some link')
  refine ⟨t, hput, ?_, fun w hw => ?_⟩
  · rw [hget, if_pos rfl]
  · rw [hget, if_neg (Ne.symm hw)]

theorem exists_setAfter {link : Link} (h : c.links[v]? = some (some link))
    (after : Option Vertex) :
    ∃ c', c.setAfter v after = .ok c' ∧ c'.links[v]? = some (some ⟨link.before, after⟩) ∧
      ∀ w, w ≠ v → c'.links[w]? = c.links[w]? := by
  obtain ⟨t, hput, hv, hother⟩ := exists_put_link h ⟨link.before, after⟩
  refine ⟨⟨t⟩, ?_, hv, hother⟩
  unfold setAfter
  rw [link_eq_ok_iff.mpr h, ok_bind, hput, ok_bind, pure_eq_ok]

theorem exists_setBefore {link : Link} (h : c.links[v]? = some (some link))
    (before : Option Vertex) :
    ∃ c', c.setBefore v before = .ok c' ∧ c'.links[v]? = some (some ⟨before, link.after⟩) ∧
      ∀ w, w ≠ v → c'.links[w]? = c.links[w]? := by
  obtain ⟨t, hput, hv, hother⟩ := exists_put_link h ⟨before, link.after⟩
  refine ⟨⟨t⟩, ?_, hv, hother⟩
  unfold setBefore
  rw [link_eq_ok_iff.mpr h, ok_bind, hput, ok_bind, pure_eq_ok]

/-! ## Joining segments -/

theorem join_eq (c : Chain) (before after : Option Vertex) :
    c.join before after = (match before with
      | some b => c.setAfter b after
      | none => pure c) >>= fun c => match after with
        | some a => c.setBefore a before
        | none => pure c := by
  cases before <;> rfl

-- The first half of a join: the end of a segment is linked to what comes next.
theorem exists_endAt {x : Option Vertex} (h : c.Segment before l x) (hnodup : l.Nodup)
    (after : Option Vertex) :
    ∃ c', (match l.getLast? with
        | some b => c.setAfter b after
        | none => pure c) = .ok c' ∧
      c'.Segment before l after ∧ ∀ w, w ∉ l → c'.links[w]? = c.links[w]? := by
  rcases List.eq_nil_or_concat l with rfl | ⟨front, b, rfl⟩
  · exact ⟨c, rfl, segment_nil, fun w _ => rfl⟩
  · rw [List.concat_eq_append] at h hnodup ⊢
    rw [List.getLast?_append, List.getLast?_singleton, Option.some_or]
    obtain ⟨hfront, hb⟩ := segment_append.mp h
    obtain ⟨c', hset, hlink, hother⟩ := exists_setAfter hb.1 after
    refine ⟨c', hset, segment_append.mpr ⟨hfront.congr fun w hw => hother w ?_, ?_⟩, ?_⟩
    · rintro rfl
      exact (List.nodup_append.mp hnodup).2.2 w hw w List.mem_cons_self rfl
    · exact segment_cons.mpr ⟨hlink, segment_nil⟩
    · intro w hw
      exact hother w fun heq => hw (by simp [heq])

-- The second half of a join: the first element of a segment is linked to what comes before.
theorem exists_startAt {y : Option Vertex} (h : c.Segment y l after) (hnodup : l.Nodup)
    (before : Option Vertex) :
    ∃ c', (match l.head? with
        | some a => c.setBefore a before
        | none => pure c) = .ok c' ∧
      c'.Segment before l after ∧ ∀ w, w ∉ l → c'.links[w]? = c.links[w]? := by
  cases l with
  | nil => exact ⟨c, rfl, segment_nil, fun w _ => rfl⟩
  | cons a rest =>
    obtain ⟨ha, hrest⟩ := segment_cons.mp h
    obtain ⟨c', hset, hlink, hother⟩ := exists_setBefore ha before
    refine ⟨c', hset, segment_cons.mpr ⟨hlink, hrest.congr fun w hw => hother w ?_⟩, ?_⟩
    · rintro rfl
      exact (List.nodup_cons.mp hnodup).1 hw
    · intro w hw
      exact hother w fun heq => hw (by simp [heq])

/-- Joining the end of one segment and the start of another makes them meet, and leaves all other
links alone. -/
theorem exists_join {x y : Option Vertex} (h₁ : c.Segment before l₁ x)
    (h₂ : c.Segment y l₂ after) (hnodup : (l₁ ++ l₂).Nodup) :
    ∃ c', c.join l₁.getLast? l₂.head? = .ok c' ∧ c'.Segment before l₁ l₂.head? ∧
      c'.Segment l₁.getLast? l₂ after ∧ ∀ w, w ∉ l₁ ++ l₂ → c'.links[w]? = c.links[w]? := by
  obtain ⟨hnodup₁, hnodup₂, hdisjoint⟩ := List.nodup_append.mp hnodup
  obtain ⟨c₁, hend, hseg₁, hother₁⟩ := exists_endAt h₁ hnodup₁ l₂.head?
  have h₂' : c₁.Segment y l₂ after :=
    h₂.congr fun w hw => hother₁ w fun hw' => hdisjoint w hw' w hw rfl
  obtain ⟨c₂, hstart, hseg₂, hother₂⟩ := exists_startAt h₂' hnodup₂ l₁.getLast?
  refine ⟨c₂, ?_, ?_, hseg₂, ?_⟩
  · rw [join_eq, hend, ok_bind]
    exact hstart
  · exact hseg₁.congr fun w hw => hother₂ w fun hw' => hdisjoint w hw w hw' rfl
  · intro w hw
    rw [List.mem_append, not_or] at hw
    rw [hother₂ w hw.2, hother₁ w hw.1]

-- Closing a chain over one of its elements leaves the chain of the others.
theorem exists_unlink (h : c.Segment none (l₁ ++ v :: l₂) none)
    (hnodup : (l₁ ++ v :: l₂).Nodup) :
    ∃ c', c.unlink v = .ok c' ∧ c'.Segment none (l₁ ++ l₂) none ∧
      ∀ w, w ∉ l₁ ++ l₂ → c'.links[w]? = c.links[w]? := by
  obtain ⟨hseg₁, hrest⟩ := segment_append.mp h
  have hnodup' : (l₁ ++ l₂).Nodup := hnodup.sublist (by simp)
  obtain ⟨c', hjoin, hseg₁', hseg₂', hother⟩ := exists_join hseg₁ hrest.2 hnodup'
  refine ⟨c', ?_, segment_append.mpr ⟨?_, ?_⟩, hother⟩
  · unfold unlink
    rw [link_eq_ok_iff.mpr h.link_eq, ok_bind]
    exact hjoin
  · rwa [Option.or_none]
  · rwa [Option.or_none]

-- Putting an unlinked element between two neighbors makes it a member of their chain.
theorem exists_insertBetween {link : Link} (h : c.Segment none (l₁ ++ l₂) none)
    (hv : c.links[v]? = some (some link)) (hnodup : (l₁ ++ v :: l₂).Nodup) :
    ∃ c', c.insertBetween v l₁.getLast? l₂.head? = .ok c' ∧
      c'.Segment none (l₁ ++ v :: l₂) none ∧
      ∀ w, w ∉ l₁ ++ v :: l₂ → c'.links[w]? = c.links[w]? := by
  obtain ⟨hseg₁, hseg₂⟩ := segment_append.mp h
  have hnodup' : ((l₁ ++ [v]) ++ l₂).Nodup := by
    rwa [List.append_assoc, List.singleton_append]
  have hsingle : c.Segment link.before [v] link.after := segment_cons.mpr ⟨hv, segment_nil⟩
  obtain ⟨hnodup₁, hnodup₂, hdisjoint⟩ := List.nodup_append.mp hnodup'
  obtain ⟨c₁, hjoin₁, hl₁, hv₁, hother₁⟩ := exists_join hseg₁ hsingle hnodup₁
  have hfront : c₁.Segment none (l₁ ++ [v]) link.after := by
    refine segment_append.mpr ⟨hl₁, ?_⟩
    rwa [Option.or_none]
  have hback : c₁.Segment (l₁.getLast?.or none) l₂ none :=
    hseg₂.congr fun w hw => hother₁ w fun hw' => hdisjoint w hw' w hw rfl
  obtain ⟨c₂, hjoin₂, hl₂, hv₂, hother₂⟩ := exists_join hfront hback hnodup'
  rw [List.getLast?_append, List.getLast?_singleton, Option.some_or] at hjoin₂ hv₂
  refine ⟨c₂, ?_, ?_, ?_⟩
  · unfold insertBetween
    rw [List.head?_cons] at hjoin₁
    rw [hjoin₁, ok_bind]
    exact hjoin₂
  · rw [← List.singleton_append, ← List.append_assoc]
    refine segment_append.mpr ⟨?_, ?_⟩
    · rwa [Option.or_none]
    · rwa [List.getLast?_append, List.getLast?_singleton, Option.some_or, Option.some_or]
  · intro w hw
    have hw' : w ∉ (l₁ ++ [v]) ++ l₂ := by
      rwa [List.append_assoc, List.singleton_append]
    rw [hother₂ w hw', hother₁ w fun h => hw' (List.mem_append_left l₂ h)]

-- Moving an element is closing the chain over it and putting it between two others.
theorem exists_move {high low : List Vertex} (h : c.Segment none (l₁ ++ v :: l₂) none)
    (hnodup : (l₁ ++ v :: l₂).Nodup) (hsplit : l₁ ++ l₂ = high ++ low) :
    ∃ c₁ c₂, c.unlink v = .ok c₁ ∧ c₁.Segment none (high ++ low) none ∧
      c₁.insertBetween v high.getLast? low.head? = .ok c₂ ∧
      c₂.Segment none (high ++ v :: low) none ∧
      ∀ w, w ∉ l₁ ++ v :: l₂ → c₂.links[w]? = c.links[w]? := by
  have hperm : (high ++ v :: low).Perm (l₁ ++ v :: l₂) := by
    apply List.perm_middle.trans
    rw [← hsplit]
    exact List.perm_middle.symm
  obtain ⟨c₁, hunlink, hseg₁, hother₁⟩ := exists_unlink h hnodup
  have hv : v ∉ l₁ ++ l₂ := (List.nodup_middle.mp hnodup).notMem
  have hlink := (hother₁ v hv).trans h.link_eq
  rw [hsplit] at hseg₁
  obtain ⟨c₂, hinsert, hseg₂, hother₂⟩ :=
    exists_insertBetween hseg₁ hlink (hperm.nodup_iff.mpr hnodup)
  refine ⟨c₁, c₂, hunlink, hseg₁, hinsert, hseg₂, fun w hw => ?_⟩
  rw [hother₂ w fun hmem => hw (hperm.mem_iff.mp hmem), hother₁ w fun hmem => hw ?_]
  exact List.perm_middle.mem_iff.mpr (List.mem_cons_of_mem v hmem)

-- Taking an element out of its chain leaves the chain of the others and no link of its own.
theorem exists_remove (h : c.Segment none (l₁ ++ v :: l₂) none)
    (hnodup : (l₁ ++ v :: l₂).Nodup) :
    ∃ c', c.remove v = .ok c' ∧ c'.Segment none (l₁ ++ l₂) none ∧ c'.links[v]? = some none ∧
      ∀ w, w ≠ v → w ∉ l₁ ++ l₂ → c'.links[w]? = c.links[w]? := by
  obtain ⟨c₁, hunlink, hseg, hother⟩ := exists_unlink h hnodup
  have hv : v ∉ l₁ ++ l₂ := (List.nodup_middle.mp hnodup).notMem
  have hlink : c₁.links[v]? = c.links[v]? := hother v hv
  have hlt : v < c₁.links.size := by
    rw [h.link_eq] at hlink
    exact (Array.getElem?_eq_some_iff.mp hlink).1
  obtain ⟨t, hput, -, hget⟩ := Table.exists_put hlt none
  refine ⟨⟨t⟩, ?_, hseg.congr fun w hw => ?_, ?_, fun w hne hw => ?_⟩
  · unfold remove
    rw [hunlink, ok_bind, hput, ok_bind, pure_eq_ok]
  · rw [hget, if_neg]
    rintro rfl
    exact hv hw
  · rw [hget, if_pos rfl]
  · rw [hget, if_neg (Ne.symm hne), hother w hw]

-- Linking the ids of a list one after the other makes it a segment.
theorem exists_thread (before : Option Vertex) (hnodup : l.Nodup)
    (hlt : ∀ v ∈ l, v < c.links.size) :
    ∃ c', c.thread before l = .ok c' ∧ c'.Segment before l none ∧
      ∀ w, w ∉ l → c'.links[w]? = c.links[w]? := by
  induction l generalizing c before with
  | nil => exact ⟨c, rfl, segment_nil, fun w _ => rfl⟩
  | cons u rest ih =>
    obtain ⟨hu, hnodup'⟩ := List.nodup_cons.mp hnodup
    obtain ⟨t, hput, hsize, hget⟩ :=
      Table.exists_put (hlt u List.mem_cons_self) (some ⟨before, rest.head?⟩)
    have hlt' : ∀ v ∈ rest, v < (⟨t⟩ : Chain).links.size := fun v hv =>
      hsize.symm ▸ hlt v (List.mem_cons_of_mem _ hv)
    obtain ⟨c', hthread, hseg, hother⟩ := ih (some u) hnodup' hlt'
    refine ⟨c', ?_, segment_cons.mpr ⟨?_, hseg⟩, fun w hw => ?_⟩
    · rw [thread, hput, ok_bind]
      exact hthread
    · rw [hother u hu, hget, if_pos rfl, Option.or_none]
    · rw [List.mem_cons, not_or] at hw
      rw [hother w hw.2, hget, if_neg (Ne.symm hw.1)]

end Chain

end LocalityOrder
