import EngramDB.Foundations.Numbering
import Mathlib.Data.Finset.Card

/-!
# The compressed token map

The n-grams of the V4.1 table are hashed over compressed token ids: tokens whose decoded text
normalizes alike share one id. `refs/v41_engram.py` and `scripts/gen_v41_token_map.py` build the map
alike. Decoding and normalizing are done by the `tokenizers` package, so they are parameters.

`buildCompressedTokenMap_spec`: tokens share an id exactly when they share a key, no id is skipped,
and the ids are handed out in the order in which the keys first appear.
-/

namespace EngramDB

namespace V41

/-- What the map uses of a tokenizer. -/
structure Tokenizer where
  /-- `backend.decode([token_id], skip_special_tokens=False)`. -/
  decode : ℕ → String
  /-- `backend.id_to_token(token_id)`. -/
  idToToken : ℕ → Option String
  /-- `normalizer.normalize_str(text)`. -/
  normalizeStr : String → String

namespace Tokenizer

/-- The key of a token: its normalized text. A text that normalizes to nothing is its own key, and a
token that is only a part of a character is keyed by its raw form. -/
def key (tokenizer : Tokenizer) (tokenId : ℕ) : Option String :=
  let text := tokenizer.decode tokenId
  if '\ufffd' ∈ text.toList then tokenizer.idToToken tokenId
  else
    let normalized := tokenizer.normalizeStr text
    some (if normalized.isEmpty then text else normalized)

end Tokenizer

/-- `build_compressed_token_map` for a vocabulary of `vocabSize` tokens: the lookup and the size of
the compressed vocabulary. -/
def buildCompressedTokenMap (tokenizer : Tokenizer) (vocabSize : ℕ) : List ℕ × ℕ :=
  let (lookup, keyToNew) :=
    Numbering.number OrderedDict.empty ((List.range vocabSize).map tokenizer.key)
  (lookup, keyToNew.entries.length)

variable (tokenizer : Tokenizer) (vocabSize : ℕ)

private theorem compressedVocab_eq :
    (buildCompressedTokenMap tokenizer vocabSize).2 =
      (OrderedDict.insertKeys [] ((List.range vocabSize).map tokenizer.key)).length := by
  show (Numbering.number _ _).2.entries.length = _
  have hkeys := Numbering.numbers_empty.keys_number ((List.range vocabSize).map tokenizer.key)
  rw [OrderedDict.keys_empty] at hkeys
  rw [← hkeys, OrderedDict.keys, List.length_map]

/-- Tokens share a compressed id exactly when they share a key, the ids are the numbers below the
size of the compressed vocabulary, and a token whose key is new gets the number of different keys
before it. -/
theorem buildCompressedTokenMap_spec :
    (∀ i j, i < vocabSize → j < vocabSize →
      ((buildCompressedTokenMap tokenizer vocabSize).1[i]? =
          (buildCompressedTokenMap tokenizer vocabSize).1[j]? ↔
        tokenizer.key i = tokenizer.key j)) ∧
    (∀ new, new ∈ (buildCompressedTokenMap tokenizer vocabSize).1 ↔
      new < (buildCompressedTokenMap tokenizer vocabSize).2) ∧
    ∀ i, i < vocabSize → (∀ j < i, tokenizer.key j ≠ tokenizer.key i) →
      (buildCompressedTokenMap tokenizer vocabSize).1[i]? =
        some (Finset.image tokenizer.key (Finset.range i)).card := by
  have hkey : ∀ i < vocabSize,
      ((List.range vocabSize).map tokenizer.key)[i]? = some (tokenizer.key i) := by
    intro i hi
    rw [List.getElem?_map, List.getElem?_range hi, Option.map_some]
  refine ⟨fun i j hi hj => Numbering.number_eq_iff (hkey i hi) (hkey j hj), fun new => ?_,
    fun i hi hnew => ?_⟩
  · rw [compressedVocab_eq]
    exact Numbering.mem_number_iff
  · have htake : ((List.range vocabSize).map tokenizer.key).take i =
        (List.range i).map tokenizer.key := by
      rw [← List.map_take, List.take_range, Nat.min_eq_left (Nat.le_of_lt hi)]
    have hnot : tokenizer.key i ∉ ((List.range vocabSize).map tokenizer.key).take i := by
      rw [htake, List.mem_map]
      rintro ⟨j, hj, heq⟩
      exact hnew j (List.mem_range.mp hj) heq
    have hnumber := Numbering.getElem?_number (hkey i hi) hnot
    rw [htake] at hnumber
    refine hnumber.trans (congrArg some ?_)
    -- the keys before it, each once
    have hnodup : (OrderedDict.insertKeys [] ((List.range i).map tokenizer.key)).Nodup :=
      OrderedDict.nodup_insertKeys List.nodup_nil _
    rw [← List.toFinset_card_of_nodup hnodup]
    congr 1
    ext k
    rw [List.mem_toFinset, OrderedDict.mem_insertKeys, Finset.mem_image]
    simp only [List.not_mem_nil, false_or, List.mem_map, List.mem_range, Finset.mem_range]

end V41

end EngramDB
