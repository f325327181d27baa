import NixEvalJobs.Codec
import NixEvalJobs.Constituents.Resolution
import NixEvalJobs.Scheduler.Handlers

/-!
# Aggregates — recording the responses

`emitResponse` records the JSON of every job and error in the `JobMap`, and prints it
unless its typed response names constituents. Later the aggregates are found by the
JSON alone. Both tests agree, since the JSON is that of the response: it was encoded
from it, or the response was decoded from what a worker had encoded.

* `isAggregate_emitAll` — the aggregates of the map are the jobs not printed yet.
-/

namespace NixEvalJobs

/-! ## `emitResponse` -/

/-- What `emitResponse` is called with. -/
structure Emission where
  response : Response
  json : Json
  dumped : Str

/-- The `JobMap` and the lines on standard output. -/
structure Collected where
  jobs : JobMap := ∅
  stdout : List Str := []

def emitResponse (c : Collected) (e : Emission) : Collected where
  jobs := c.jobs.insert e.response.attr e.json
  stdout := if e.response.hasPendingConstituents then c.stdout else c.stdout ++ [e.dumped]

/-- One response after the other. -/
def emitAll (emissions : List Emission) : Collected := emissions.foldl emitResponse {}

/-- The scheduler's `emitResponse` is this one. -/
theorem Scheduler.emitResponse_collected {n : Nat} (s : Scheduler n) (response : Response)
    (json : Json) (dumped : Str) :
    let c := NixEvalJobs.emitResponse ⟨s.jobs, s.stdout⟩ ⟨response, json, dumped⟩
    (s.emitResponse response json dumped).jobs = c.jobs ∧
      (s.emitResponse response json dumped).stdout = c.stdout :=
  ⟨rfl, rfl⟩

/-- A response of a job or an error with its JSON and its text. The JSON is that of the
response, or that of what a worker has sent and the response was decoded from. -/
structure Emission.Valid (X : StorePaths) (dump : Json → Option Str) (e : Emission) : Prop where
  kind : ∀ attrs, e.response.payload ≠ .attrs attrs
  encoded : e.json = e.response.toJson X ∨
    ∃ sent : Response, e.json = sent.toJson X ∧ Response.fromJson X e.json = .ok e.response
  dumped : dump e.json = some e.dumped

/-! ## The JSON of a response -/

/-- Decoding a derivation reads the constituents as they are. -/
theorem Drv.fromFields_constituents {X : StorePaths} {json : Fields} {drv : Drv}
    (h : Drv.fromFields X json = .ok drv) :
    Constituents.fromFields json = .ok drv.constituents := by
  rw [Drv.fromFields] at h
  obtain ⟨_, -, h⟩ := bind_eq_ok.mp h
  obtain ⟨storeDir, -, h⟩ := bind_eq_ok.mp h
  obtain ⟨_, -, h⟩ := bind_eq_ok.mp h
  obtain ⟨_, -, h⟩ := bind_eq_ok.mp h
  obtain ⟨outputs, -, h⟩ := bind_eq_ok.mp h
  obtain ⟨_, -, h⟩ := bind_eq_ok.mp h
  obtain ⟨name, -, h⟩ := bind_eq_ok.mp h
  obtain ⟨_, -, h⟩ := bind_eq_ok.mp h
  obtain ⟨system, -, h⟩ := bind_eq_ok.mp h
  obtain ⟨_, -, h⟩ := bind_eq_ok.mp h
  obtain ⟨drvPath, -, h⟩ := bind_eq_ok.mp h
  obtain ⟨inputDrvs, -, h⟩ := bind_eq_ok.mp h
  obtain ⟨features, -, h⟩ := bind_eq_ok.mp h
  obtain ⟨constituents, hconstituents, h⟩ := bind_eq_ok.mp h
  -- the cache members come last and touch nothing else
  rw [readCacheFields] at h
  split at h
  · obtain rfl := Except.ok.inj h
    exact hconstituents
  · obtain ⟨status, -, h⟩ := bind_eq_ok.mp h
    obtain ⟨builds, -, h⟩ := bind_eq_ok.mp h
    obtain ⟨substitutes, -, h⟩ := bind_eq_ok.mp h
    obtain rfl := Except.ok.inj h
    exact hconstituents

/-- What is decoded waits for its constituents exactly when what was encoded does. -/
theorem Response.fromJson_toJson_pending {X : StorePaths} {sent decoded : Response}
    (h : fromJson X (sent.toJson X) = .ok decoded) :
    decoded.hasPendingConstituents = sent.hasPendingConstituents := by
  obtain ⟨-, -, hkind⟩ := fromJson_toJson_kind h
  match hp : sent.payload with
  | .job drv extraValue =>
    rw [fromJson_toJson_job hp] at h
    match hdrv : Drv.fromFields X (sent.toFields X) with
    | .error e =>
      rw [hdrv] at h
      cases h
    | .ok drv' =>
      rw [hdrv] at h
      obtain rfl := Except.ok.inj h
      -- the same constituents are read from the members
      have hread := Drv.fromFields_constituents hdrv
      rw [Constituents.fromFields_of_writtenIn (writtenIn_toFields_job hp).constituents] at hread
      rw [hasPendingConstituents, hasPendingConstituents, hp]
      show (!drv'.constituents.namedConstituents.isEmpty) = _
      rw [← Except.ok.inj hread]
  | .attrs names =>
    rw [hp] at hkind
    rw [hasPendingConstituents, hasPendingConstituents, hp]
    match hq : decoded.payload with
    | .attrs _ | .error _ _ => rfl
    | .job _ _ =>
      rw [hq] at hkind
      cases hkind
  | .error text fatal =>
    rw [hp] at hkind
    rw [hasPendingConstituents, hasPendingConstituents, hp]
    match hq : decoded.payload with
    | .attrs _ | .error _ _ => rfl
    | .job _ _ =>
      rw [hq] at hkind
      cases hkind

/-- The JSON of an emission is that of some job or error with the same name, which waits
for constituents when the response does. -/
theorem Emission.Valid.sent {X : StorePaths} {dump : Json → Option Str} {e : Emission}
    (h : e.Valid X dump) : ∃ sent : Response, e.json = sent.toJson X ∧
      sent.attr = e.response.attr ∧
      sent.hasPendingConstituents = e.response.hasPendingConstituents ∧
      ∀ attrs, sent.payload ≠ .attrs attrs := by
  rcases h.encoded with hjson | ⟨sent, hjson, hdecode⟩
  · exact ⟨e.response, hjson, rfl, rfl, h.kind⟩
  · rw [hjson] at hdecode
    obtain ⟨hattr, -, hkind⟩ := Response.fromJson_toJson_kind hdecode
    refine ⟨sent, hjson, hattr.symm, (Response.fromJson_toJson_pending hdecode).symm, ?_⟩
    intro attrs hattrs
    rw [hattrs] at hkind
    match hp : e.response.payload with
    | .attrs names => exact h.kind names hp
    | .job _ _ | .error _ _ =>
      rw [hp] at hkind
      exact hkind

namespace Aggregates

variable {X : StorePaths}

theorem find_toJson (response : Response) (key : Str) :
    (response.toJson X).find key = (response.toFields X).get key := rfl

/-- The names of constituents in the JSON of a job are its own, an error has none. -/
theorem namedConstituents_toJson {response : Response}
    (hkind : ∀ attrs, response.payload ≠ .attrs attrs) :
    namedConstituents (response.toJson X) = match response.payload with
      | .job drv _ => drv.constituents.namedConstituents.map .string
      | _ => [] := by
  rw [namedConstituents, find_toJson]
  match hp : response.payload with
  | .job drv extraValue =>
    rw [(Response.writtenIn_toFields_job hp).constituents.namedConstituents]
    rfl
  | .error text fatal =>
    have hnone : (response.toFields X).get (lit "namedConstituents") = none := by
      rw [Response.toFields, hp]
      simp (disch := decide) only [Fields.get_setOpt_ne, Fields.get_set_ne, Fields.get_nil]
    rw [hnone]
  | .attrs names => exact absurd hp (hkind names)

theorem namedConstituents_eq_nil {response : Response}
    (hkind : ∀ attrs, response.payload ≠ .attrs attrs) :
    namedConstituents (response.toJson X) = [] ↔ response.hasPendingConstituents = false := by
  rw [namedConstituents_toJson hkind, Response.hasPendingConstituents]
  match response.payload with
  | .job drv _ => simp
  | .error _ _ | .attrs _ => simp

/-! ## The recorded map -/

variable {dump : Json → Option Str} {emissions : List Emission}

theorem emitAll_jobs (emissions : List Emission) : (emitAll emissions).jobs =
    emissions.foldl (fun jobs e => jobs.insert e.response.attr e.json) ∅ := by
  have hfold : ∀ c : Collected, (emissions.foldl emitResponse c).jobs =
      emissions.foldl (fun jobs e => jobs.insert e.response.attr e.json) c.jobs := by
    induction emissions with
    | nil => exact fun _ => rfl
    | cons e emissions ih => exact fun c => ih (emitResponse c e)
  exact hfold {}

/-- **What is recorded**: the JSON of every response, under its name. -/
theorem emitAll_entry (hdistinct : (emissions.map fun e => e.response.attr).Nodup) {name : Str}
    {json : Json} : (emitAll emissions).jobs[name]? = some json ↔
      ∃ e ∈ emissions, e.response.attr = name ∧ e.json = json := by
  rw [emitAll_jobs, StdMap.getElem?_foldl_insert hdistinct]
  simp

/-- **Attribute paths are different keys.** Any two print differently, so when every
response is named after its attribute path, none overwrites the result of another. -/
theorem attrPath_key_injective : Function.Injective joinAttrPath ∧
    ∀ emissions : List Emission,
      (∀ e ∈ emissions, e.response.attr = joinAttrPath e.response.attrPath) →
        (emissions.map fun e => e.response.attrPath).Nodup →
          ∀ e ∈ emissions,
            (emitAll emissions).jobs[joinAttrPath e.response.attrPath]? = some e.json := by
  refine ⟨fun _ _ h => joinAttrPath_inj h, fun emissions hnamed hdistinct e he => ?_⟩
  have hattrs : (emissions.map fun e => e.response.attr) =
      (emissions.map fun e => e.response.attrPath).map joinAttrPath := by
    rw [List.map_map]
    exact List.map_congr_left hnamed
  have hkeys : (emissions.map fun e => e.response.attr).Nodup := by
    rw [hattrs]
    exact hdistinct.map fun _ _ h => joinAttrPath_inj h
  exact (emitAll_entry hkeys).mpr ⟨e, he, hnamed e he, rfl⟩

/-- The names `a.b` and `a`, `b` are different paths, and look alike without quotes. -/
theorem attrPath_key_injective_dotted :
    joinAttrPath [lit "a.b"] ≠ joinAttrPath [lit "a", lit "b"] :=
  attrPath_key_injective.1.ne (by decide)

/-- **What is printed**: the text of every response that does not wait. -/
theorem emitAll_stdout (emissions : List Emission) : (emitAll emissions).stdout =
    (emissions.filter fun e => !e.response.hasPendingConstituents).map Emission.dumped := by
  have hfold : ∀ c : Collected, (emissions.foldl emitResponse c).stdout = c.stdout ++
      (emissions.filter fun e => !e.response.hasPendingConstituents).map Emission.dumped := by
    induction emissions with
    | nil => exact fun c => (List.append_nil _).symm
    | cons e emissions ih =>
      intro c
      rw [List.foldl_cons, ih, emitResponse, List.filter_cons]
      cases e.response.hasPendingConstituents with
      | true => simp
      | false => simp
  exact hfold {}

/-- **Both tests agree**: the aggregates of the map are the jobs that wait. -/
theorem isAggregate_emitAll (hvalid : ∀ e ∈ emissions, e.Valid X dump)
    (hdistinct : (emissions.map fun e => e.response.attr).Nodup) {name : Str} :
    IsAggregate (emitAll emissions).jobs name ↔
      ∃ e ∈ emissions, e.response.attr = name ∧ e.response.hasPendingConstituents = true := by
  have hagree : ∀ e ∈ emissions, namedConstituents e.json ≠ [] ↔
      e.response.hasPendingConstituents = true := by
    intro e he
    obtain ⟨sent, hjson, -, hpending, hkind⟩ := (hvalid e he).sent
    rw [hjson, ne_eq, namedConstituents_eq_nil hkind, hpending, Bool.not_eq_false]
  constructor
  · rintro ⟨json, hentry, hnamed⟩
    obtain ⟨e, he, hattr, rfl⟩ := (emitAll_entry hdistinct).mp hentry
    exact ⟨e, he, hattr, (hagree e he).mp hnamed⟩
  · rintro ⟨e, he, hattr, hpending⟩
    exact ⟨e.json, (emitAll_entry hdistinct).mpr ⟨e, he, hattr, rfl⟩, (hagree e he).mpr hpending⟩

end Aggregates

end NixEvalJobs
