import Zeos.Machine.Memory

/-!
# Address space constants (`mm_address.h`)

The numbers of the memory map: pages of 4096 bytes, of which the kernel has the
first 256, and the user's data and code pages that begin at `L_USER_START`.

The values are those of the header, with the shifts of the source where it shifts.
Nothing below computes with them before it has to: the lemmas of the other modules speak
of `numPagKernel` and `lUserStart` and unfold them for the arithmetic alone.
-/

namespace Zeos

/-- `TOTAL_PAGES`, the entries of a table and the frames of `phys_mem`. -/
def totalPages : ℕ := 1024

/-- `NUM_PAG_KERNEL`. -/
def numPagKernel : ℕ := 256

/-- `NUM_PAG_CODE`. -/
def numPagCode : ℕ := 8

/-- `NUM_PAG_DATA`. -/
def numPagData : ℕ := 20

/-- `KERNEL_START`: where the loader puts the system image. -/
def kernelStart : ℕ := 0x10000

/-- `L_USER_START`: the first user address. -/
def lUserStart : ℕ := 0x100000

/-- `PAG_LOG_INIT_DATA`: the first logical page of the user's data. -/
def pagLogInitData : ℕ := lUserStart >>> 12

/-- `PAG_LOG_INIT_CODE`: the first logical page of the user's code. -/
def pagLogInitCode : ℕ := pagLogInitData + numPagData

/-- `USER_FIRST_PAGE`. -/
def userFirstPage : ℕ := lUserStart >>> 12

/-- `ENTRY_DIR_PAGES`: the directory entry that holds the page table. -/
def entryDirPages : ℕ := 0

end Zeos
