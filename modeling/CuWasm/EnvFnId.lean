/-!
# Host function numbers

`env_fn_id.rs` with the table it builds from `docs/soroban-env.json`: an import is resolved by its
module and field name, and its number is its position in the flattened table.
-/

namespace CuWasm.EnvFnId

/-- The modules of the table: export name, and per function its export name and label. -/
def modules : List (String × List (String × String)) :=
  [("x", [
    ("_", "log_from_linear_memory"), ("0", "obj_cmp"), ("1", "contract_event"),
    ("2", "get_ledger_version"), ("3", "get_ledger_sequence"), ("4", "get_ledger_timestamp"),
    ("5", "fail_with_error"), ("6", "get_ledger_network_id"),
    ("7", "get_current_contract_address"), ("8", "get_max_live_until_ledger")]),
   ("i", [
    ("_", "obj_from_u64"), ("0", "obj_to_u64"), ("1", "obj_from_i64"), ("2", "obj_to_i64"),
    ("3", "obj_from_u128_pieces"), ("4", "obj_to_u128_lo64"), ("5", "obj_to_u128_hi64"),
    ("6", "obj_from_i128_pieces"), ("7", "obj_to_i128_lo64"), ("8", "obj_to_i128_hi64"),
    ("9", "obj_from_u256_pieces"), ("a", "u256_val_from_be_bytes"), ("b", "u256_val_to_be_bytes"),
    ("c", "obj_to_u256_hi_hi"), ("d", "obj_to_u256_hi_lo"), ("e", "obj_to_u256_lo_hi"),
    ("f", "obj_to_u256_lo_lo"), ("g", "obj_from_i256_pieces"), ("h", "i256_val_from_be_bytes"),
    ("i", "i256_val_to_be_bytes"), ("j", "obj_to_i256_hi_hi"), ("k", "obj_to_i256_hi_lo"),
    ("l", "obj_to_i256_lo_hi"), ("m", "obj_to_i256_lo_lo"), ("n", "u256_add"), ("o", "u256_sub"),
    ("p", "u256_mul"), ("q", "u256_div"), ("r", "u256_rem_euclid"), ("s", "u256_pow"),
    ("t", "u256_shl"), ("u", "u256_shr"), ("v", "i256_add"), ("w", "i256_sub"), ("x", "i256_mul"),
    ("y", "i256_div"), ("z", "i256_rem_euclid"), ("A", "i256_pow"), ("B", "i256_shl"),
    ("C", "i256_shr"), ("D", "timepoint_obj_from_u64"), ("E", "timepoint_obj_to_u64"),
    ("F", "duration_obj_from_u64"), ("G", "duration_obj_to_u64"), ("H", "u256_checked_add"),
    ("I", "u256_checked_sub"), ("J", "u256_checked_mul"), ("K", "u256_checked_pow"),
    ("L", "i256_checked_add"), ("M", "i256_checked_sub"), ("N", "i256_checked_mul"),
    ("O", "i256_checked_pow")]),
   ("m", [
    ("_", "map_new"), ("0", "map_put"), ("1", "map_get"), ("2", "map_del"), ("3", "map_len"),
    ("4", "map_has"), ("5", "map_key_by_pos"), ("6", "map_val_by_pos"), ("7", "map_keys"),
    ("8", "map_values"), ("9", "map_new_from_linear_memory"), ("a", "map_unpack_to_linear_memory"),
    ("b", "sparse_map_new_from_linear_memory"), ("c", "sparse_map_unpack_to_linear_memory")]),
   ("v", [
    ("_", "vec_new"), ("0", "vec_put"), ("1", "vec_get"), ("2", "vec_del"), ("3", "vec_len"),
    ("4", "vec_push_front"), ("5", "vec_pop_front"), ("6", "vec_push_back"), ("7", "vec_pop_back"),
    ("8", "vec_front"), ("9", "vec_back"), ("a", "vec_insert"), ("b", "vec_append"),
    ("c", "vec_slice"), ("d", "vec_first_index_of"), ("e", "vec_last_index_of"),
    ("f", "vec_binary_search"), ("g", "vec_new_from_linear_memory"),
    ("h", "vec_unpack_to_linear_memory")]),
   ("l", [
    ("_", "put_contract_data"), ("0", "has_contract_data"), ("1", "get_contract_data"),
    ("2", "del_contract_data"), ("3", "create_contract"), ("4", "create_asset_contract"),
    ("5", "upload_wasm"), ("6", "update_current_contract_wasm"), ("7", "extend_contract_data_ttl"),
    ("8", "extend_current_contract_instance_and_code_ttl"),
    ("9", "extend_contract_instance_and_code_ttl"), ("a", "get_contract_id"),
    ("b", "get_asset_contract_id"), ("c", "extend_contract_instance_ttl"),
    ("d", "extend_contract_code_ttl"), ("e", "create_contract_with_constructor"),
    ("f", "extend_contract_data_ttl_v2"), ("g", "extend_contract_instance_and_code_ttl_v2"),
    ("h", "create_executable_tag"), ("i", "create_external_ref_contract"),
    ("j", "update_current_contract_executable_ref")]),
   ("d", [
    ("_", "call"), ("0", "try_call")]),
   ("b", [
    ("_", "serialize_to_bytes"), ("0", "deserialize_from_bytes"),
    ("1", "bytes_copy_to_linear_memory"), ("2", "bytes_copy_from_linear_memory"),
    ("3", "bytes_new_from_linear_memory"), ("4", "bytes_new"), ("5", "bytes_put"),
    ("6", "bytes_get"), ("7", "bytes_del"), ("8", "bytes_len"), ("9", "bytes_push"),
    ("a", "bytes_pop"), ("b", "bytes_front"), ("c", "bytes_back"), ("d", "bytes_insert"),
    ("e", "bytes_append"), ("f", "bytes_slice"), ("g", "string_copy_to_linear_memory"),
    ("h", "symbol_copy_to_linear_memory"), ("i", "string_new_from_linear_memory"),
    ("j", "symbol_new_from_linear_memory"), ("k", "string_len"), ("l", "symbol_len"),
    ("m", "symbol_index_in_linear_memory"), ("n", "string_to_bytes"), ("o", "bytes_to_string")]),
   ("c", [
    ("_", "compute_hash_sha256"), ("0", "verify_sig_ed25519"), ("1", "compute_hash_keccak256"),
    ("2", "recover_key_ecdsa_secp256k1"), ("3", "verify_sig_ecdsa_secp256r1"),
    ("4", "bls12_381_check_g1_is_in_subgroup"), ("5", "bls12_381_g1_add"),
    ("6", "bls12_381_g1_mul"), ("7", "bls12_381_g1_msm"), ("8", "bls12_381_map_fp_to_g1"),
    ("9", "bls12_381_hash_to_g1"), ("a", "bls12_381_check_g2_is_in_subgroup"),
    ("b", "bls12_381_g2_add"), ("c", "bls12_381_g2_mul"), ("d", "bls12_381_g2_msm"),
    ("e", "bls12_381_map_fp2_to_g2"), ("f", "bls12_381_hash_to_g2"),
    ("g", "bls12_381_multi_pairing_check"), ("h", "bls12_381_fr_add"), ("i", "bls12_381_fr_sub"),
    ("j", "bls12_381_fr_mul"), ("k", "bls12_381_fr_pow"), ("l", "bls12_381_fr_inv"),
    ("m", "bn254_g1_add"), ("n", "bn254_g1_mul"), ("o", "bn254_multi_pairing_check"),
    ("p", "poseidon_permutation"), ("q", "poseidon2_permutation"), ("r", "bn254_g1_msm"),
    ("s", "bn254_fr_add"), ("t", "bn254_fr_sub"), ("u", "bn254_fr_mul"), ("v", "bn254_fr_pow"),
    ("w", "bn254_fr_inv"), ("x", "bls12_381_g1_is_on_curve"), ("y", "bls12_381_g2_is_on_curve"),
    ("z", "bn254_g1_is_on_curve")]),
   ("a", [
    ("_", "require_auth_for_args"), ("0", "require_auth"), ("1", "strkey_to_address"),
    ("2", "address_to_strkey"), ("3", "authorize_as_curr_contract"),
    ("4", "get_address_from_muxed_address"), ("5", "get_id_from_muxed_address"),
    ("6", "get_address_executable"), ("7", "strkey_to_muxed_address"),
    ("8", "muxed_address_to_strkey"), ("9", "get_delegated_signers_for_current_auth_check"),
    ("a", "delegate_account_auth")]),
   ("t", [
    ("_", "dummy0"), ("0", "protocol_gated_dummy")]),
   ("p", [
    ("_", "prng_reseed"), ("0", "prng_bytes_new"), ("1", "prng_u64_in_inclusive_range"),
    ("2", "prng_vec_shuffle")])]

/-- The flattened table: module name, field name and label of every host function. -/
def table : List (String × String × String) :=
  modules.flatMap fun m => m.2.map fun f => (m.1, f.1, f.2)

/-- `lookup`. The pairs of module and field name are distinct, so the first match is the only one. -/
def lookup (modExport fnExport : String) : Except String Nat :=
  match table.findIdx? fun f => f.1 == modExport && f.2.1 == fnExport with
  | some i => .ok i
  | none => .error ("unknown host import " ++ modExport ++ "::" ++ fnExport)

/-- `label`. -/
def label (fnId : Nat) : Option String :=
  (table[fnId]?).map fun f => f.1 ++ "::" ++ f.2.1 ++ " (" ++ f.2.2 ++ ")"

end CuWasm.EnvFnId
