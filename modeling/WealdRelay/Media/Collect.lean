import WealdRelay.Media.Objects
import WealdRelay.Retention.Manifest

/-!
# The collectors

`media/gc.rs`, one pass of each collector with nothing else running.

* The unclaimed collector takes the reservations that no manifest has named for a day,
  with their objects.
* The retention collector takes the objects that were claimed, are absent from the newest
  manifest of their group, and that a policy or a destruction record has made due.
* The storage sweep takes the objects of a group that no reservation knows.

What the store answers to a delete is an argument, `clears`. The reports and the run log
are left out.
-/

namespace WealdRelay.Media

open Lib Retention Table

/-! ## The object store -/

/-- The name of an object: a blob of a group, or one part of a multipart upload. -/
inductive Key where
  | blob (workspace group hash : Bytes)
  | part (session number : Nat)
deriving DecidableEq

structure StoredObject where
  key : Key
  len : Int
  modifiedMs : Option Nat
deriving DecidableEq

/-- The store: its objects, each under a name of its own. -/
abbrev Storage := List StoredObject

namespace Storage

def get (objects : Storage) (key : Key) : Option StoredObject :=
  lookup StoredObject.key objects key

def delete (objects : Storage) (key : Key) : Storage :=
  remove StoredObject.key objects key

/-- Write an object, in place of the one under its name. -/
def put (objects : Storage) (object : StoredObject) : Storage :=
  objects.delete object.key ++ [object]

theorem get_delete (objects : Storage) (key key' : Key) :
    (objects.delete key).get key' = if key' = key then none else objects.get key' :=
  lookup_remove key key'

theorem get_put (objects : Storage) (object : StoredObject) (key : Key) :
    (objects.put object).get key = if object.key = key then some object else objects.get key := by
  by_cases h : object.key = key
  · rw [if_pos h, ← h]
    exact lookup_snoc_self ((get_delete objects _ _).trans (if_pos rfl)) rfl
  · rw [if_neg h]
    exact (lookup_snoc_of_ne h).trans ((get_delete objects _ _).trans (if_neg (Ne.symm h)))

end Storage

/-- The tables and the store. -/
structure Shelf where
  tables : Tables
  objects : Storage

/-! ## The unclaimed collector -/

/-- 24 hours, the grace of a relay that nobody configured. -/
def unclaimedGraceSeconds : Int := 24 * 60 * 60

/-- `stale_unclaimed`, for one workspace. -/
def staleUnclaimed (workspace : Bytes) (graceSeconds now : Int) (tables : Tables) :
    List Reservation :=
  (tables workspace).rows.filter (·.stale graceSeconds now)

/-- The collector's transaction on one candidate: the row is held, the object deleted and
the row released. -/
def collectUnclaimed (workspace : Bytes) (graceSeconds now : Int) (clears : Key → Bool)
    (shelf : Shelf) (row : Reservation) : Shelf :=
  let key := Key.blob workspace row.group row.hash
  match (lockUnclaimed workspace row.reservationId graceSeconds now).alone Write.apply
      shelf.tables with
  | .ok (true, _) =>
    if clears key then
      match (releaseIn workspace row.reservationId).alone Write.apply shelf.tables with
      | .ok (some _, tables) => ⟨tables, shelf.objects.delete key⟩
      -- The object is gone, and the transaction rolled back.
      | _ => ⟨shelf.tables, shelf.objects.delete key⟩
    else shelf
  | _ => shelf

/-- `sweep_unclaimed_after`. -/
def sweepUnclaimedAfter (workspace : Bytes) (graceSeconds now : Int) (clears : Key → Bool)
    (shelf : Shelf) : Shelf :=
  (staleUnclaimed workspace graceSeconds now shelf.tables).foldl
    (collectUnclaimed workspace graceSeconds now clears) shelf

/-! ## The storage sweep -/

/-- `claimed_hashes`: every object of the group that has a reservation. -/
def claimedHashes (workspace group : Bytes) (tables : Tables) : List Bytes :=
  ((tables workspace).rows.filter (·.group = group)).map (·.hash)

/-- The object is old enough to go; one of unknown age is not, unless there is no floor. -/
def oldEnough (floorMs nowMs : Nat) (modifiedMs : Option Nat) : Bool :=
  floorMs = 0 || modifiedMs.any (fun modified => floorMs ≤ nowMs - modified)

/-- The names of a group's objects that the sweep takes. -/
def unreferenced (workspace group : Bytes) (floorMs nowMs : Nat) (known : List Bytes)
    (objects : Storage) : List Key :=
  objects.filterMap (fun object =>
    match object.key with
    | .blob inside of hash =>
      if inside = workspace && of = group && !known.contains hash &&
          oldEnough floorMs nowMs object.modifiedMs
      then some object.key else none
    | .part _ _ => none)

/-- What the sweep takes is of the group and has no row. -/
theorem rowOf_of_unreferenced {ws g floorMs nowMs ts objects key}
    (h : key ∈ unreferenced ws g floorMs nowMs (claimedHashes ws g ts)
      objects) : ∃ hash, key = .blob ws g hash ∧ (ts ws).rowOf g hash = none := by
  obtain ⟨object, -, hobject⟩ := List.mem_filterMap.mp h
  split at hobject
  next w wanted hash hblob =>
    split at hobject
    next hdoomed =>
      cases hobject
      simp only [Bool.and_eq_true, decide_eq_true_eq] at hdoomed
      obtain ⟨⟨⟨rfl, rfl⟩, hunknown⟩, -⟩ := hdoomed
      refine ⟨hash, hblob, ?_⟩
      cases hrow : (ts w).rowOf wanted hash with
      | none => rfl
      | some row =>
        exfalso
        obtain ⟨hg, hh⟩ := Prod.mk.inj (Ledger.slot_of_rowOf hrow)
        have hknown : hash ∈ claimedHashes w wanted ts :=
          List.mem_map.mpr ⟨row, List.mem_filter.mpr
            ⟨Ledger.mem_of_rowOf hrow, by simpa using hg⟩, hh⟩
        simp [hknown] at hunknown
    · cases hobject
  · cases hobject

/-- The largest number of 64 bits. -/
def maxU64 : Nat := 18446744073709551615

/-- `sweep_unreferenced_storage`, unless the restore marker is set or the listing fails. -/
def sweepUnreferencedStorage (workspace group : Bytes) (nowMs minAgeSeconds : Nat)
    (suppressed listFails : Bool) (clears : Key → Bool) (shelf : Shelf) : Shelf :=
  if suppressed || listFails then shelf
  else
    let doomed := unreferenced workspace group (min (minAgeSeconds * 1000) maxU64) nowMs
      (claimedHashes workspace group shelf.tables) shelf.objects
    { shelf with
      objects := (doomed.filter clears).foldl (fun objects key => objects.delete key)
        shelf.objects }

/-! ## The retention collector -/

/-- 30 days, whatever a policy says. -/
def mediaGraceFloorDays : Nat := 30

/-- Whether one claimed object may be removed right now. -/
inductive Eligibility where
  | live
  | frozen
  | notYetDue
  | eligible
deriving DecidableEq

/-- Due once this moment has come. -/
def dueAt (nowMs dueMs : Nat) : Eligibility := if dueMs ≤ nowMs then .eligible else .notYetDue

/-- `eligible`. -/
def eligible (records : Records) (hash : Bytes) (claimedAtMs nowMs : Nat) : Eligibility :=
  if records.chain.frozen then .frozen
  else if records.latestManifest.any (fun latest => latest.blobs.contains hash) then .live
  else
    match records.activeDestruction .blob hash with
    | some destruction => dueAt nowMs (min (destruction.notBeforeSecs * 1000) maxU64)
    | none =>
      match records.activePolicy with
      | none => .notYetDue
      | some policy =>
        let graceMs := max policy.mediaAfterDays mediaGraceFloorDays * 24 * 60 * 60 * 1000
        dueAt nowMs (max (min (claimedAtMs + graceMs) maxU64)
          (min (policy.notBeforeSecs * 1000) maxU64))

/-- The retention collector passes over an object that the newest manifest names. -/
theorem not_eligible_of_named {rs hash} (hnamed : ∃ latest ∈ rs.latestManifest, hash ∈ latest.blobs)
    (claimedAtMs nowMs : Nat) : eligible rs hash claimedAtMs nowMs ≠ .eligible := by
  obtain ⟨latest, hlatest, hh⟩ := hnamed
  rw [eligible]
  split
  · simp
  · simp [Option.mem_def.mp hlatest, hh]

/-- The second a row was claimed in, as `extract(epoch …)::bigint` rounds it, in
milliseconds. -/
def claimedAtMs (finalizedAt : Int) : Nat := ((finalizedAt + 500000) / 1000000).toNat * 1000

/-- `finalized_reservations`. -/
def finalizedReservations (workspace group : Bytes) (tables : Tables) : List Reservation :=
  (tables workspace).rows.filter (fun row => row.group = group && row.finalized)

/-- One claimed object: the object goes first, then its row. -/
def collectRetained (workspace : Bytes) (records : Records) (nowMs : Nat) (clears : Key → Bool)
    (shelf : Shelf) (row : Reservation) : Shelf :=
  let key := Key.blob workspace row.group row.hash
  if eligible records row.hash (claimedAtMs (row.finalizedAt.getD 0)) nowMs = .eligible &&
      clears key then
    match (finishDeletion workspace row.reservationId).alone Write.apply shelf.tables with
    | .ok (_, tables) => ⟨tables, shelf.objects.delete key⟩
    | .error _ => ⟨shelf.tables, shelf.objects.delete key⟩
  else shelf

/-- `sweep_retention`. -/
def sweepRetention (workspace group : Bytes) (records : Records) (nowMs : Nat)
    (clears : Key → Bool) (shelf : Shelf) : Shelf :=
  (finalizedReservations workspace group shelf.tables).foldl
    (collectRetained workspace records nowMs clears) shelf

/-! ## What a collector takes -/

namespace Shelf

/-- A collector between two shelves takes rows and objects of the blobs it may take, and
nothing else changes. -/
structure Takes (may : Bytes → Bytes → Bytes → Prop) (before after : Shelf) : Prop where
  tidy : Tidy after.tables
  rows : ∀ workspace group hash,
    (after.tables workspace).rowOf group hash = (before.tables workspace).rowOf group hash ∨
      may workspace group hash ∧ (after.tables workspace).rowOf group hash = none
  objects : ∀ key, after.objects.get key = before.objects.get key ∨
    (∃ workspace group hash, key = .blob workspace group hash ∧ may workspace group hash) ∧
      after.objects.get key = none

/-- The unclaimed collector may take what has a stale row. -/
def Unclaimed (shelf : Shelf) (workspace : Bytes) (graceSeconds now : Int)
    (inside group hash : Bytes) : Prop :=
  inside = workspace ∧ ∃ row, (shelf.tables inside).rowOf group hash = some row ∧
    row.stale graceSeconds now = true

/-- The storage sweep may take what has no row. -/
def Unreferenced (shelf : Shelf) (workspace wanted inside group hash : Bytes) : Prop :=
  inside = workspace ∧ group = wanted ∧ (shelf.tables inside).rowOf group hash = none

/-- The retention collector may take what was claimed and is due. -/
def Retained (shelf : Shelf) (workspace wanted : Bytes) (records : Records) (nowMs : Nat)
    (inside group hash : Bytes) : Prop :=
  inside = workspace ∧ group = wanted ∧ ∃ row, (shelf.tables inside).rowOf group hash = some row ∧
    row.finalized = true ∧
    eligible records hash (claimedAtMs (row.finalizedAt.getD 0)) nowMs = .eligible

section Takes

variable {may : Bytes → Bytes → Bytes → Prop} {b shelf : Shelf} {ts : Tables}
  {ws g hash : Bytes} {row : Reservation} {key : Key}

theorem Takes.refl (ht : Tidy shelf.tables) : Takes may shelf shelf :=
  ⟨ht, fun _ _ _ => .inl rfl, fun _ => .inl rfl⟩

theorem Takes.delete (h : Takes may b shelf) (hmay : may ws g hash) :
    Takes may b { shelf with objects := shelf.objects.delete (.blob ws g hash) } := by
  refine ⟨h.tidy, h.rows, fun key => ?_⟩
  rw [Storage.get_delete]
  split
  next hkey => exact .inr ⟨⟨ws, g, hash, hkey, hmay⟩, rfl⟩
  · exact h.objects key

theorem Takes.rowOf_eq (h : Takes may b shelf) (hrow : (shelf.tables ws).rowOf g hash = some row) :
    (b.tables ws).rowOf g hash = some row := by
  rcases h.rows ws g hash with heq | ⟨-, hnone⟩
  · rw [← heq]
    exact hrow
  · rw [hnone] at hrow
    cases hrow

/-- Deleting the row under an id, which was the row of a blob that may be taken. -/
theorem Takes.remove {p : Reservation → Bool} (hb : Tidy b.tables)
    (h : Takes may b shelf) (hrow : row ∈ (b.tables ws).rows)
    (hmay : may ws row.group row.hash) (ht : Tidy ts)
    (hrows : ∀ w g hash, (ts w).rowOf g hash = ((shelf.tables w).rowOf g hash).filter
        (fun x => !(w = ws && (x.reservationId = row.reservationId &&
          p x)))) : Takes may b { shelf with tables := ts } := by
  refine ⟨ht, fun w g hash => ?_, h.objects⟩
  rw [hrows]
  cases hf : (shelf.tables w).rowOf g hash with
  | none =>
    rcases h.rows w g hash with heq | hgone
    · exact .inl (by rw [← heq, hf]; rfl)
    · exact .inr ⟨hgone.1, rfl⟩
  | some x =>
    have ho := h.rowOf_eq hf
    cases hgone : (w = ws && (x.reservationId = row.reservationId && p x)) with
    | false => exact .inl (by simp only [Option.filter, hgone, Bool.not_false, if_true, ho])
    | true =>
      -- The row under this id is the listed one, since ids are not shared.
      simp only [Bool.and_eq_true, decide_eq_true_eq] at hgone
      obtain ⟨rfl, hid, hp⟩ := hgone
      obtain rfl : x = row := List.inj_on_of_nodup_map
        (hb.conserved w).ids (Ledger.mem_of_rowOf ho) hrow hid
      obtain ⟨rfl, rfl⟩ := Prod.mk.inj (Ledger.slot_of_rowOf ho)
      exact .inr ⟨hmay, by simp [Option.filter, hp]⟩

theorem takes_sweepUnclaimedAfter (ws : Bytes) (grace now : Int)
    (clears : Key → Bool) (ht : Tidy b.tables) :
    Takes (b.Unclaimed ws grace now) b (sweepUnclaimedAfter ws grace now clears b) := by
  rw [sweepUnclaimedAfter]
  refine List.foldlRecOn _ _ (.refl ht) fun shelf h row hrow => ?_
  obtain ⟨hrow, hstale⟩ := List.mem_filter.mp hrow
  have hmay : b.Unclaimed ws grace now ws row.group row.hash :=
    ⟨rfl, row, Ledger.rowOf_of_mem (ht.single ws) hrow, hstale⟩
  rw [collectUnclaimed]
  split
  · split
    · split
      next bytes ts hrel =>
        obtain ⟨htables, hrows⟩ := releaseIn_rowOf h.tidy hrel
        exact .remove ht (h.delete hmay) hrow hmay htables hrows
      · exact h.delete hmay
    · exact h
  · exact h

theorem takes_sweepRetention (ws g : Bytes) (rs : Records) (nowMs : Nat)
    (clears : Key → Bool) (ht : Tidy b.tables) :
    Takes (b.Retained ws g rs nowMs) b (sweepRetention ws g rs nowMs clears b) := by
  rw [sweepRetention]
  refine List.foldlRecOn _ _ (.refl ht) fun shelf h row hrow => ?_
  simp only [finalizedReservations, List.mem_filter, Bool.and_eq_true, decide_eq_true_eq] at hrow
  obtain ⟨hrow, hg, hfinal⟩ := hrow
  rw [collectRetained]
  split
  next hdue =>
    simp only [Bool.and_eq_true, decide_eq_true_eq] at hdue
    have hmay : b.Retained ws g rs nowMs ws row.group row.hash :=
      ⟨rfl, hg, row, Ledger.rowOf_of_mem (ht.single ws) hrow, hfinal, hdue.1⟩
    split
    next ts hfinish =>
      obtain ⟨htables, hrows⟩ := finishDeletion_rowOf h.tidy hfinish
      exact .remove ht (h.delete hmay) hrow hmay htables hrows
    · exact h.delete hmay
  · exact h

theorem takes_sweepUnreferencedStorage (ws g : Bytes) (nowMs minAgeSeconds : Nat)
    (suppressed listFails : Bool) (clears : Key → Bool) (ht : Tidy b.tables) :
    Takes (b.Unreferenced ws g) b
      (sweepUnreferencedStorage ws g nowMs minAgeSeconds suppressed listFails clears b) := by
  rw [sweepUnreferencedStorage]
  split
  · exact .refl ht
  · refine List.foldlRecOn (motive := fun objects => Takes (b.Unreferenced ws g)
      b { b with objects }) _ _ (.refl ht) (fun objects h key hkey => ?_)
    obtain ⟨hash, rfl, hnone⟩ := rowOf_of_unreferenced (List.mem_filter.mp hkey).1
    exact h.delete ⟨rfl, rfl, hnone⟩

end Takes
end Shelf
end WealdRelay.Media
