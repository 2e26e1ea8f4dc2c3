/-
The line library that is used writes lines as is relied on.

Ordinary fields are written as the members of any JSON, one behind the other (`Line.fieldTexts_ordinary`); fields that describe a
request as one field, whose value is a JSON value when they are (`Request.proper_shown`). The only field of the line's own is the
number of the level.

Main statement: `LineLibrary.standard_writes`.
-/
import LayeredProfiles.Log.Standard
import LayeredProfiles.Proofs.LogLines

namespace LayeredProfiles

/-! ## Requests -/

namespace Request

variable {v m : Json}

theorem proper_url? (h : v.Proper) (hm : url? v = some m) : m.Proper := by
  unfold url? at hm
  split at hm
  · rename_i hurl
    exact h.filled? (hurl.trans hm)
  · cases hm
    exact Json.proper_str _
  · obtain ⟨url, hurl, rfl⟩ := Option.map_eq_some_iff.1 hm
    cases hpath : url.filled? "path" with
    | none => exact h.filled? hurl
    | some path => exact (h.filled? hurl).filled? hpath

theorem proper_id? (h : v.Proper) (hm : id? v = some m) : m.Proper := by
  unfold id? at hm
  split at hm
  · rename_i hid
    exact h.filled? (hid.trans hm)
  · obtain ⟨info, hinfo, hm⟩ := Option.bind_eq_some_iff.1 hm
    exact (h.filled? hinfo).member? hm

theorem proper_connection (h : v.Proper) : (connection v).Proper := by
  unfold connection
  split
  · rename_i hinfo
    exact h.filled? hinfo
  · cases hsocket : v.member? "socket" with
    | none => exact Json.proper_null
    | some socket => exact h.member? hsocket

theorem proper_shown (h : v.Proper) : (shown v).Proper := by
  refine Json.proper_ofMembers fun d hd => ?_
  obtain ⟨e, he, hde⟩ := List.mem_filterMap.1 hd
  obtain ⟨m, hm, rfl⟩ := Option.map_eq_some_iff.1 hde
  simp only [List.mem_cons, List.not_mem_nil, or_false] at he
  rcases he with rfl | rfl | rfl | rfl | rfl | rfl | rfl | rfl
  · exact proper_id? h hm
  · exact h.member? hm
  · exact proper_url? h hm
  · exact h.filled? hm
  · exact h.filled? hm
  · exact h.member? hm
  · exact (proper_connection h).member? hm
  · exact (proper_connection h).member? hm

end Request

namespace LogFields

variable {fields : LogFields}

theorem object_eq (fields : LogFields) : Request.object fields = .ofMembers fields.members := by
  rw [Request.object, members, membersOf]
  congr 2
  funext e
  cases e.2 <;> rfl

theorem member?_object (h : fields.Ordinary) (key : String) :
    ((Request.object fields).member? key).map LogValue.json = fields.get? key := by
  have hmember : (Request.object fields).member? key = (OrderedMap.ofList fields.members : Record Json).get? key := by
    rw [object_eq]
    rfl
  rw [hmember, OrderedMap.get?_ofList_eq, find?_members_reverse h]

theorem filled?_object_iff (h : fields.Ordinary) (key : String) :
    ((Request.object fields).filled? key).isSome = true ↔ ∃ v, fields.get? key = some (.json v) ∧ v.isVoid = false := by
  rw [← member?_object h, Json.filled?]
  cases (Request.object fields).member? key <;> simp [Option.filter]

theorem isRequest_object_iff (h : fields.Ordinary) :
    Request.isRequest (Request.object fields) = true ↔ fields.DescribesRequest := by
  simp only [Request.isRequest, Bool.and_eq_true, filled?_object_iff h, DescribesRequest, List.forall_mem_cons, and_assoc]
  simp

theorem ofFields?_of_describes (h : fields.Ordinary) (hrequest : fields.DescribesRequest) :
    Request.ofFields? fields = some (Request.shown (Request.object fields)) :=
  if_pos ((isRequest_object_iff h).2 hrequest)

theorem ofFields?_of_not_describes (h : fields.Ordinary) (hrequest : ¬ fields.DescribesRequest) :
    Request.ofFields? fields = none :=
  if_neg fun hshown => hrequest ((isRequest_object_iff h).1 hshown)

theorem proper_object (h : fields.Ordinary) : (Request.object fields).Proper := by
  rw [object_eq]
  exact Json.proper_ofMembers fun d hd => proper_of_mem_membersOf h hd

end LogFields

/-! ## Writing ordinary fields -/

namespace Line

open LogFields (OrdinaryField membersOf)

variable {fields context : LogFields} {event : LogEvent}

theorem keyChars_eq_quote {key : String} (h : isPlainKey key = true) (origin : FieldOrigin) :
    keyChars origin key = Json.quote key := by
  cases origin with
  | context => exact (beq_iff_eq.1 h).symm
  | call => rfl

theorem fieldTexts_ordinary {l : List (String × LogValue)} (h : ∀ e ∈ l, OrdinaryField e) (origin : FieldOrigin) :
    fieldTexts origin l = .ok ((membersOf l).map memberChars) := by
  induction l with
  | nil => rfl
  | cons e l ih =>
    obtain ⟨key, value⟩ := e
    obtain ⟨⟨⟨v, hv, -⟩, hplain, hfree⟩, hl⟩ := List.forall_mem_cons.1 h
    obtain rfl : value = .json v := hv
    have herr : key ≠ LogFields.errorKey := by
      rintro rfl
      have hspecial : LogFields.errorKey ∈ specialKeys := by decide
      exact hfree hspecial
    have hinherited : ¬ inheritedNames.contains key = true := by
      rw [List.contains_iff_mem]
      exact fun hmem => hfree (List.mem_append_right _ hmem)
    have hvalue : valueOf key (.json v) = .ok (some v) := by rw [valueOf, if_neg herr]
    have hchars : valueChars origin key v = .ok (some v.render) := if_neg hinherited
    rw [fieldTexts, hvalue, LogFields.membersOf_cons_json rfl, List.map_cons, memberChars, ← keyChars_eq_quote hplain origin]
    simp only [bind, Except.bind, hchars, ih hl]
    rfl

theorem contextTexts_ordinary (h : context.Ordinary) : contextTexts context = .ok (context.members.map memberChars) := by
  have hforbidden : context.contains forbiddenKey = false := by
    rw [OrderedMap.contains_eq_false_iff]
    exact LogFields.get?_eq_none h (by decide)
  have hkept : context.entries.filter (fun e => !reservedKeys.contains e.1) = context.entries := by
    refine List.filter_eq_self.2 fun e he => ?_
    have hspecial : ∀ key ∈ reservedKeys, key ∈ specialKeys := by decide
    have hfree : e.1 ∉ reservedKeys := fun hreserved => (h e he).free (hspecial _ hreserved)
    simpa using hfree
  rw [contextTexts, hforbidden, hkept]
  exact fieldTexts_ordinary h .context

theorem mapM_contextTexts {contexts : List LogFields} (h : ∀ context ∈ contexts, context.Ordinary) :
    contexts.mapM contextTexts = .ok (contexts.map fun context => context.members.map memberChars) := by
  induction contexts with
  | nil => rfl
  | cons context contexts ih =>
    obtain ⟨hcontext, hcontexts⟩ := List.forall_mem_cons.1 h
    rw [List.mapM_cons, contextTexts_ordinary hcontext, ih hcontexts]
    rfl

theorem intercalate_members (l : List (String × Json)) :
    List.intercalate [','] (l.map memberChars) = Json.renderMembers l := by
  induction l with
  | nil => rfl
  | cons d l ih =>
    cases l with
    | nil => simp [memberChars, Json.renderMembers, List.intercalate]
    | cons e l =>
      rw [Json.renderMembers, ← ih]
      · simp [memberChars, List.intercalate]
      · simp

/-! ## The line of a call -/

theorem ownFields_level (l : LogLevel) : OwnFields l [(levelKey, .ofNat l.number)] where
  level := List.mem_singleton_self _
  unique v hv := by simpa using hv
  others d hd := by
    have hlevel : levelKey ∈ ownKeys := by decide
    obtain rfl := List.mem_singleton.1 hd
    exact ⟨hlevel, Json.proper_ofNat (by cases l <;> decide)⟩

/-- what stands in the place of the fields of a call is written in their place -/
theorem ofEvent_of_callTexts {shown : List (String × Json)} (h : ∀ context ∈ event.contexts, context.Ordinary)
    (hcall : callTexts event.fields = .ok (shown.map memberChars)) :
    ∃ line, ofEvent event = .ok line ∧ line.IsTextOf event shown := by
  have hcontexts : (event.contexts.map fun context => context.members.map memberChars).flatten =
      (event.contexts.flatMap LogFields.members).map memberChars := by
    rw [List.map_flatMap, List.flatMap_def]
  refine ⟨⟨(Json.obj (membersFor [(levelKey, .ofNat event.level.number)] event shown)).render⟩, ?_, _, ownFields_level _, rfl⟩
  rw [Json.render, ← intercalate_members, ofEvent, mapM_contextTexts h, hcall]
  simp only [bind, Except.bind, pure, Except.pure, hcontexts, membersFor, List.map_append, List.map_cons, List.map_nil,
    List.cons_append, List.nil_append]

end Line

/-! ## The library -/

/-- levels are numbered in their order -/
theorem LogLevel.number_le_iff (l l' : LogLevel) : l.number ≤ l'.number ↔ l.rank ≤ l'.rank := by
  cases l <;> cases l' <;> decide

theorem Threshold.ofWord?_word (l : LogLevel) : ofWord? l.word = some (.level l) := by
  cases l <;> decide

namespace LineLibrary

theorem admits_iff (least l : LogLevel) : (Threshold.level least).admits l = true ↔ least.rank ≤ l.rank := by
  rw [Threshold.admits, decide_eq_true_iff, LogLevel.number_le_iff]

theorem write_of_callTexts {least : LogLevel} {e : LogEvent} {shown : List (String × Json)} (he : e.Ordinary)
    (hlevel : least.rank ≤ e.level.rank) (hcall : Line.callTexts e.fields = .ok (shown.map Line.memberChars)) :
    ∃ line, (writer (.level least)).write e = .ok (some line) ∧ line.IsTextOf e shown := by
  obtain ⟨line, hline, htext⟩ := Line.ofEvent_of_callTexts he.contexts hcall
  refine ⟨line, ?_, htext⟩
  simp only [writer, if_pos ((admits_iff _ _).2 hlevel), hline]
  rfl

theorem writer_writesFrom (least : LogLevel) : (writer (.level least)).WritesFrom least where
  derive contexts h := by
    simp only [writer, Line.mapM_contextTexts h]
    rfl
  drop e h := if_neg fun hadmits => absurd ((admits_iff _ _).1 hadmits) (not_le.2 h)
  write e he hlevel hrequest := by
    refine write_of_callTexts he hlevel ?_
    rw [Line.callTexts, LogFields.ofFields?_of_not_describes he.fields hrequest]
    exact Line.fieldTexts_ordinary he.fields .call
  request e he hlevel hrequest := by
    have hcall : Line.callTexts e.fields =
        .ok ([(Line.requestKey, Request.shown (Request.object e.fields))].map Line.memberChars) := by
      rw [Line.callTexts, LogFields.ofFields?_of_describes he.fields hrequest]
      rfl
    obtain ⟨line, hline, htext⟩ := write_of_callTexts he hlevel hcall
    exact ⟨line, _, hline, Request.proper_shown (LogFields.proper_object he.fields), htext⟩

theorem standard_writes : standard.Writes := by
  intro level?
  cases level? with
  | none => exact ⟨_, rfl, writer_writesFrom .info⟩
  | some level =>
    refine ⟨writer (.level level), ?_, writer_writesFrom level⟩
    rw [standard, Option.map_some]
    simp only [Threshold.ofWord?_word]

end LineLibrary

end LayeredProfiles
