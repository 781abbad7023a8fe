import Mathlib.Data.List.DropRight
import WealdRelay.Cbor

/-!
# The address a connection is charged to

`health::client_source`: behind proxies the address of a client is read from the
`X-Forwarded-For` values, as many elements from the right as there are proxies. A value that
is not text is left out, with what a proxy has appended to it.
-/

namespace WealdRelay.Source

open List

/-- A byte that `HeaderValue::to_str` takes: visible ASCII, a space or a tab. -/
def visible (byte : Byte) : Bool := 32 ≤ byte.val ∧ byte.val < 127 ∨ byte.val = 9

/-- White space, as far as it is visible. -/
def blank (byte : Byte) : Bool := byte.val = 32 ∨ byte.val = 9

/-- `str::trim`. -/
def trim (element : Bytes) : Bytes := (element.dropWhile blank).rdropWhile blank

/-- The elements of a value that is text. -/
def elements (value : Bytes) : List Bytes :=
  if value.all visible then ((value.splitOn 44).map trim).filter (· ≠ []) else []

/-- Every element of every value, in order. -/
def chain (values : List Bytes) : List Bytes := values.flatMap elements

inductive ForwardedError where
  | chainTooShort
deriving DecidableEq

/-- `client_source`, with the address of the peer as text. -/
def clientSource (hops : Nat) (values : List Bytes) (peer : Option Bytes) :
    Except ForwardedError (Option Bytes) :=
  if hops = 0 then .ok peer
  else if (chain values).length < hops then .error .chainTooShort
  else .ok (chain values)[(chain values).length - hops]?

/-! ## The proxies -/

/-- An address as a proxy writes it: visible, without a comma or a blank. -/
structure Address where
  text : Bytes
  ne_nil : text ≠ []
  plain : ∀ byte ∈ text, 32 < byte.val ∧ byte.val < 127 ∧ byte ≠ 44

/-- How a proxy appends: a value of its own, or an element of the last value after a comma
and some spaces. -/
inductive Style where
  | newValue
  | element (spaces : Nat)

/-- The values after a proxy has appended an address. -/
def forward (values : List Bytes) (hop : Style × Address) : List Bytes :=
  match hop.1, values.getLast? with
  | .element spaces, some last =>
    values.dropLast ++ [last ++ 44 :: (replicate spaces 32 ++ hop.2.text)]
  | _, _ => values ++ [hop.2.text]

/-- The proxy appends to a value that is not text. -/
def lost (values : List Bytes) : Style → Bool
  | .newValue => false
  | .element _ => values.getLast?.any (fun last => !last.all visible)

theorem elements_append {more : Bytes} (hmore : more.all visible = true) (v : Bytes) :
    elements (v ++ 44 :: more) = if v.all visible then elements v ++ elements more else [] := by
  have hcomma : visible 44 = true := by decide
  cases hvalue : v.all visible with
  | true =>
    simp only [elements, all_append, all_cons, hvalue, hcomma, hmore, splitOn_append_cons_self,
      map_append, filter_append, Bool.and_true, if_true]
  | false => simp [elements, all_append, hvalue]

/-- What a proxy appends is text, and one element. -/
theorem elements_text (spaces : Nat) (address : Address) :
    (replicate spaces 32 ++ address.text).all visible = true ∧
      elements (replicate spaces 32 ++ address.text) = [address.text] := by
  obtain ⟨text, hne, hplain⟩ := address
  have hspace : visible 32 = true := by decide
  have hcomma : (44 : Byte) ∉ replicate spaces (32 : Byte) ++ text := by
    rw [mem_append, mem_replicate]
    rintro (⟨-, ⟨⟩⟩ | htext)
    exact (hplain 44 htext).2.2 rfl
  have hvisible : (replicate spaces 32 ++ text).all visible = true := by
    rw [all_append, all_replicate, hspace, Bool.and_eq_true]
    refine ⟨by simp, all_eq_true.mpr (fun byte hbyte => decide_eq_true (.inl ?_))⟩
    exact ⟨le_of_lt (hplain byte hbyte).1, (hplain byte hbyte).2.1⟩
  have hblank : ∀ byte ∈ text, ¬ blank byte = true := by
    intro byte hbyte h
    have := of_decide_eq_true h
    have := (hplain byte hbyte).1
    omega
  have htrim : trim (replicate spaces 32 ++ text) = text := by
    rw [trim, dropWhile_append_of_pos (by simp [blank]),
      dropWhile_eq_self_iff.mpr (fun _ => hblank _ (getElem_mem _)), rdropWhile_eq_self_iff]
    exact fun hne => hblank _ (getLast_mem hne)
  refine ⟨hvisible, ?_⟩
  rw [elements, if_pos hvisible, splitOn_eq_singleton hcomma, map_singleton, htrim,
    filter_singleton, decide_eq_true hne]
  rfl

section Forward

variable {vs : List Bytes} {style : Style} (address : Address)

/-- A proxy whose element is not lost adds its address to the chain, and the next one's is
not lost either. -/
theorem chain_forward (h : lost vs style = false) :
    chain (forward vs (style, address)) = chain vs ++ [address.text] ∧
      ∀ next, lost (forward vs (style, address)) next = false := by
  obtain ⟨hvisible, hnew⟩ := elements_text 0 address
  rw [replicate_zero, nil_append] at hvisible hnew
  have hvalue : chain (vs ++ [address.text]) = chain vs ++ [address.text] ∧
      ∀ next, lost (vs ++ [address.text]) next = false := by
    refine ⟨by simp [chain, hnew], fun next => ?_⟩
    cases next <;> simp [lost, hvisible]
  cases style with
  | newValue => exact hvalue
  | element spaces =>
    rcases eq_nil_or_concat vs with rfl | ⟨front, last, rfl⟩
    · exact hvalue
    · obtain ⟨hmore, helement⟩ := elements_text spaces address
      have hlast : last.all visible = true := by simpa [lost] using h
      have hcomma : visible 44 = true := by decide
      rw [concat_eq_append]
      refine ⟨?_, fun next => ?_⟩
      · simp [chain, forward, elements_append hmore, hlast, helement]
      · rw [all_append, Bool.and_eq_true] at hmore
        cases next <;> simp [lost, forward, hlast, hcomma, hmore.1, hmore.2]

theorem chain_forward_lost (h : lost vs style = true) :
    chain (forward vs (style, address)) = chain vs := by
  cases style with
  | newValue => cases h
  | element spaces =>
    rcases eq_nil_or_concat vs with rfl | ⟨front, last, rfl⟩
    · cases h
    · have hlast : last.all visible = false := by simpa [lost] using h
      have hnone : elements last = [] := if_neg (by simp [hlast])
      rw [concat_eq_append]
      simp [chain, forward, elements_append (elements_text spaces address).1, hlast, hnone]

variable {later : List (Style × Address)}

/-- The proxies after one whose element is not lost add their addresses. -/
theorem chain_foldl (h : ∀ next, lost vs next = false) :
    chain (later.foldl forward vs) = chain vs ++ later.map (·.2.text) := by
  induction later generalizing vs with
  | nil => simp
  | cons hop later ih =>
    obtain ⟨hchain, hnext⟩ := chain_forward hop.2 (h hop.1)
    rw [foldl_cons, ih hnext, hchain, map_cons, append_assoc, singleton_append]

/-- Proxies add at most their addresses. -/
theorem chain_foldl_le (later : List (Style × Address)) (vs : List Bytes) :
    ∃ more, chain (later.foldl forward vs) = chain vs ++ more ∧ more.length ≤ later.length := by
  induction later generalizing vs with
  | nil => exact ⟨[], by simp, le_rfl⟩
  | cons hop later ih =>
    obtain ⟨more, hmore, hlen⟩ := ih (forward vs hop)
    rw [foldl_cons, hmore]
    cases hlost : lost vs hop.1 with
    | false =>
      rw [(chain_forward hop.2 hlost).1, append_assoc]
      exact ⟨_, rfl, Nat.succ_le_succ hlen⟩
    | true =>
      rw [chain_forward_lost hop.2 hlost]
      exact ⟨more, rfl, Nat.le_succ_of_le hlen⟩

end Forward

/-- Whatever the first proxy's address is, it is the source that is read, exactly if that
proxy does not append it to a value of the client's that is not text. -/
theorem client_source_iff
    (values : List Bytes)
    (style : Style)
    (later : List (Style × Address))
    (peer : Option Bytes) :
    (∀ address : Address, clientSource (later.length + 1)
        (((style, address) :: later).foldl forward values) peer = .ok (some address.text)) ↔
      lost values style = false := by
  constructor
  · intro h
    by_contra hlost
    rw [Bool.not_eq_false] at hlost
    have hmem : ∀ address : Address, address.text ∈ chain values := by
      intro address
      have hsource := h address
      obtain ⟨more, hmore, hlen⟩ := chain_foldl_le later (forward values (style, address))
      rw [chain_forward_lost address hlost] at hmore
      rw [clientSource, if_neg (Nat.succ_ne_zero _), foldl_cons, hmore] at hsource
      split_ifs at hsource with hshort
      rw [length_append] at hshort
      rw [Except.ok.injEq, length_append, getElem?_append_left (by omega)] at hsource
      exact mem_of_getElem? hsource
    -- No list has every address among its elements.
    let long : Address := ⟨replicate ((chain values).flatten.length + 1) 49, by simp,
      fun byte hbyte => by rw [eq_of_mem_replicate hbyte]; decide⟩
    have hle := (sublist_flatten_of_mem (hmem long)).length_le
    simp only [long, length_replicate] at hle
    omega
  · intro hlost address
    obtain ⟨hchain, hnext⟩ := chain_forward address hlost
    rw [clientSource, if_neg (Nat.succ_ne_zero _), foldl_cons, chain_foldl hnext, hchain,
      if_neg (by simp only [length_append, length_singleton, length_map]; omega)]
    simp

/-- The client sends an address and a value that is not text, the proxy appends to that, and
the address is the client's own. -/
theorem client_names_its_source :
    let address : Address := ⟨[49, 46, 50, 46, 51, 46, 52], by decide, by simp⟩
    clientSource 1 (forward [[57, 46, 57, 46, 57, 46, 57], [255]] (.element 1, address)) none =
      .ok (some [57, 46, 57, 46, 57, 46, 57]) := by
  decide +kernel

end WealdRelay.Source
